import Hs5.Data.VarInt

/-!
# Actions

The actions that requests stand for and that policy statements name.
-/

namespace Hs5.Auth

inductive Action where
  | unknown | getObject | headObject | putObject | putObjectPart | deleteObject
  | listObjects | completeMultipartUpload | createBucket | deleteObjects
  | deleteBucket | addUser | removeUser | listUsers | addAccessKey
  | listAccessKeys | removeAccessKey | addPolicy | removePolicy | listPolicies
  | addRole | removeRole | listRoles | addUserRole | removeUserRole
  | listUserRoles | addRolePolicy | removeRolePolicy | listRolePolicies
  | allActions | listBuckets | listMultipartUploads | abortMultipartUpload
  | createMultipartUpload | changePolicy | createUser | changePassword
  | changeOwnPassword | getBucketLocation | copyObject | uploadPartCopy
  | listBucketPermissions | addBucketPermission | removeBucketPermission
  | setBucketPublic | putBucketVersioning | getBucketVersioning
  | listObjectVersions | getObjectAttributes | postObject | putBucketCors
  | getBucketCors | putObjectLegalHold | putBucketObjectLockConfiguration
  | putObjectRetention | bypassGovernanceRetention
  | getBucketObjectLockConfiguration | lastDummyAction
  deriving DecidableEq

/-- The texts of `actionToStr`, by the numbers of the actions from 1 on. -/
def actionTexts : List (String × Action) :=
  [("s3:GetObject", .getObject), ("s3:HeadObject", .headObject),
    ("s3:PutObject", .putObject), ("s3:PutObjectPart", .putObjectPart),
    ("s3:DeleteObject", .deleteObject), ("s3:ListObjects", .listObjects),
    ("s3:CompleteMultipartUpload", .completeMultipartUpload),
    ("s3:CreateBucket", .createBucket), ("s3:DeleteObjects", .deleteObjects),
    ("s3:DeleteBucket", .deleteBucket), ("hs5:AddUser", .addUser),
    ("hs5:RemoveUser", .removeUser), ("hs5:ListUsers", .listUsers),
    ("hs5:AddAccessKey", .addAccessKey),
    ("hs5:ListAccessKeys", .listAccessKeys),
    ("hs5:RemoveAccessKey", .removeAccessKey), ("hs5:AddPolicy", .addPolicy),
    ("hs5:RemovePolicy", .removePolicy), ("hs5:ListPolicies", .listPolicies),
    ("hs5:AddRole", .addRole), ("hs5:RemoveRole", .removeRole),
    ("hs5:ListRoles", .listRoles), ("hs5:AddUserRole", .addUserRole),
    ("hs5:RemoveUserRole", .removeUserRole),
    ("hs5:ListUserRoles", .listUserRoles),
    ("hs5:AddRolePolicy", .addRolePolicy),
    ("hs5:RemoveRolePolicy", .removeRolePolicy),
    ("hs5:ListRolePolicies", .listRolePolicies), ("*", .allActions),
    ("s3:ListBuckets", .listBuckets),
    ("s3:ListMultipartUploads", .listMultipartUploads),
    ("s3:AbortMultipartUpload", .abortMultipartUpload),
    ("s3:CreateMultipartUpload", .createMultipartUpload),
    ("hs5:ChangePolicy", .changePolicy), ("hs5:CreateUser", .createUser),
    ("hs5:ChangePassword", .changePassword),
    ("hs5:ChangeOwnPassword", .changeOwnPassword),
    ("s3:GetBucketLocation", .getBucketLocation),
    ("s3:CopyObject", .copyObject), ("s3:UploadPartCopy", .uploadPartCopy),
    ("hs5:ListBucketPermissions", .listBucketPermissions),
    ("hs5:AddBucketPermission", .addBucketPermission),
    ("hs5:RemoveBucketPermission", .removeBucketPermission),
    ("hs5:SetBucketPublic", .setBucketPublic),
    ("s3:PutBucketVersioning", .putBucketVersioning),
    ("s3:GetBucketVersioning", .getBucketVersioning),
    ("s3:ListObjectVersions", .listObjectVersions),
    ("s3:GetObjectAttributes", .getObjectAttributes),
    ("s3:PostObject", .postObject), ("s3:PutBucketCORS", .putBucketCors),
    ("s3:GetBucketCORS", .getBucketCors),
    ("s3:PutObjectLegalHold", .putObjectLegalHold),
    ("s3:PutBucketObjectLockConfiguration", .putBucketObjectLockConfiguration),
    ("s3:PutObjectRetention", .putObjectRetention),
    ("s3:BypassGovernanceRetention", .bypassGovernanceRetention),
    ("s3:GetBucketObjectLockConfiguration", .getBucketObjectLockConfiguration)]

/-- The other texts that `actionFromStr` knows. -/
def otherActionTexts : List (String × Action) :=
  [("hs5:AllActions", .allActions), ("s3:PutBucketCors", .putBucketCors),
    ("s3:GetBucketCors", .getBucketCors)]

/-- The actions by their numbers, from 1 up to `LastDummyAction`. -/
def Action.all : List Action := actionTexts.map Prod.snd ++ [.lastDummyAction]

def actionFromStr (action : Bytes) : Action :=
  (((actionTexts ++ otherActionTexts).find? fun entry =>
    ascii entry.1 = action).map Prod.snd).getD .unknown

def actionToStr (action : Action) : Bytes :=
  ((actionTexts.find? fun entry => entry.2 = action).map fun entry =>
    ascii entry.1).getD []

theorem forall_action {P : Action → Prop} (hunknown : P .unknown)
    (hall : ∀ a ∈ Action.all, P a) (a : Action) : P a := by
  by_cases ha : a = .unknown
  · rw [ha]
    exact hunknown
  · apply hall
    revert ha
    cases a <;> decide

theorem wildcard_notMem_actionToStr (a : Action) :
    a ≠ .allActions → (42 : UInt8) ∉ actionToStr a := by
  revert a
  refine forall_action ?_ ?_
  · decide +kernel
  · decide +kernel

end Hs5.Auth

import Hs5.Auth.Actions
import Hs5.Auth.ResourceMatch
import Hs5.Auth.Sessions
import Mathlib.Data.List.Perm.Basic

/-!
# Policies and permissions

Who may do what is decided by the public permissions of a bucket, by the
statements of the policies that the roles of a user bring along, and by the
permissions that the user has for the bucket.  The functions of this module
evaluate them with loops that return early; the results say what is decided
in terms of matching statements, in whatever order they come.
-/

namespace Hs5.Auth

open List Glob

/-! ## Statements -/

inductive Effect where
  | deny
  | allow
  deriving DecidableEq

/-- `Statement`; the name of a statement is not looked at. -/
structure Statement where
  effect : Effect
  actions : List Action
  resources : List Bytes

structure Policy where
  statements : List Statement

inductive AccessCheckResult where
  | deny
  | allow
  | noMatch
  deriving DecidableEq

/-- The two tests of `checkAccess`: of the actions and of the resources. -/
def Statement.applies (stmt : Statement) (action : Action)
    (resource : Bytes) : Bool :=
  (decide (action ∈ stmt.actions) || decide (.allActions ∈ stmt.actions)) &&
    stmt.resources.any fun resPattern => resourceMatch resPattern resource

def checkAccessLoop (action : Action) (resource : Bytes) :
    AccessCheckResult → List Statement → AccessCheckResult
  | ret, [] => ret
  | ret, stmt :: rest =>
    if stmt.applies action resource then
      match stmt.effect with
      | .allow => checkAccessLoop action resource .allow rest
      | .deny => .deny
    else checkAccessLoop action resource ret rest

def Policy.checkAccess (policy : Policy) (action : Action)
    (resource : Bytes) : AccessCheckResult :=
  checkAccessLoop action resource .noMatch policy.statements

/-- `Policy::expandAction`; the error is the text of the exception. -/
def expandAction (actionStr : Bytes) : Except Bytes (List Action) :=
  if wildcards.star ∉ actionStr then
    match actionFromStr actionStr with
    | .unknown =>
      .error (ascii "Unknown action " ++ actionStr ++ ascii " in policy")
    | actionId => .ok [actionId]
  else if actionStr = ascii "*" then .ok [.allActions]
  else
    .ok (Action.all.filter fun actionId =>
      actionId ≠ .allActions ∧ resourceMatch actionStr (actionToStr actionId))

/-! ## Permissions -/

def bucketPermissionRead : BitVec 32 := 1
def bucketPermissionWrite : BitVec 32 := 2
def bucketPermissionDelete : BitVec 32 := 4

def hasSimplePermission (perm : BitVec 32) (action : Action) : Bool :=
  if perm &&& bucketPermissionRead ≠ 0 ∧
      action ∈ [.getObject, .listObjects, .listBuckets,
        .listMultipartUploads, .getBucketLocation] then true
  else if perm &&& bucketPermissionWrite ≠ 0 ∧
      action ∈ [.putObject, .putObjectPart, .completeMultipartUpload,
        .createMultipartUpload, .copyObject, .uploadPartCopy,
        .postObject] then true
  else if perm &&& bucketPermissionDelete ≠ 0 ∧
      action ∈ [.deleteObject, .deleteBucket, .abortMultipartUpload,
        .deleteObjects] then true
  else false

structure BucketInfo where
  id : ℤ
  publicPerms : BitVec 32

structure Role where
  policies : List Policy

structure User where
  roles : List Role
  bucketPermissions : ℤ → Option (BitVec 32)

/-- What the functions below look up: access keys, the users of sessions, users
and buckets. -/
structure AuthCache where
  accessKeys : Bytes → Option AccessKey
  sessionUsers : Bytes → Option ℤ
  users : ℤ → Option User
  buckets : Bytes → Option BucketInfo

/-- The bucket that a resource names, if there is one. -/
def AuthCache.bucketInfo (cache : AuthCache) (resource : Bytes) :
    Option BucketInfo :=
  let arn := ascii "arn:aws:s3:::"
  if arn <+: resource then
    let bucketName := (resource.drop arn.length).takeWhile (· ≠ 47)
    if bucketName = [] then none else cache.buckets bucketName
  else none

/-- The loop over the policies of one role; `none` is the early return. -/
def rolePolicies (action : Action) (resource : Bytes) :
    AccessCheckResult → List Policy → Option AccessCheckResult
  | finalRes, [] => some finalRes
  | finalRes, policy :: rest =>
    match policy.checkAccess action resource with
    | .deny => none
    | .allow => rolePolicies action resource .allow rest
    | .noMatch => rolePolicies action resource finalRes rest

def userRoles (action : Action) (resource : Bytes) :
    AccessCheckResult → List Role → Option AccessCheckResult
  | finalRes, [] => some finalRes
  | finalRes, role :: rest => do
      let finalRes ← rolePolicies action resource finalRes role.policies
      userRoles action resource finalRes rest

def isAuthorizedNoLock (cache : AuthCache) (resource : Bytes)
    (action : Action) (userId : ℤ) : Bool :=
  let bucketInfo := cache.bucketInfo resource
  if bucketInfo.any fun info => hasSimplePermission info.publicPerms action
  then true
  else if userId < 0 then false
  else
    match cache.users userId with
    | none => false
    | some user =>
      match userRoles action resource .noMatch user.roles with
      | none => false
      | some .allow => true
      | some _ =>
        match bucketInfo with
        | none => false
        | some info =>
          match user.bucketPermissions info.id with
          | none => false
          | some perm => hasSimplePermission perm action

def isAuthorized (cache : AuthCache) (resource : Bytes) (action : Action)
    (accessKey : Bytes) : Bool :=
  if accessKey = [] then isAuthorizedNoLock cache resource action (-1)
  else
    match cache.accessKeys accessKey with
    | none => false
    | some key =>
      if key.userId = 0 then
        match cache.sessionUsers accessKey with
        | none => false
        | some userId => isAuthorizedNoLock cache resource action userId
      else isAuthorizedNoLock cache resource action key.userId

/-! ## What the loops decide -/

def anyApplies (statements : List Statement) (effect : Effect)
    (action : Action) (resource : Bytes) : Bool :=
  statements.any fun stmt =>
    decide (stmt.effect = effect) && stmt.applies action resource

/-- All statements that the roles of a user bring along. -/
def User.statements (user : User) : List Statement :=
  user.roles.flatMap fun role => role.policies.flatMap Policy.statements

section Loops

variable (action : Action) (resource : Bytes) (ret : AccessCheckResult)

theorem checkAccessLoop_eq (statements : List Statement) :
    checkAccessLoop action resource ret statements =
      if anyApplies statements .deny action resource then .deny
      else if anyApplies statements .allow action resource then .allow
      else ret := by
  induction statements generalizing ret with
  | nil => rfl
  | cons stmt rest ih =>
    rw [checkAccessLoop]
    by_cases happlies : stmt.applies action resource = true
    · rcases heffect : stmt.effect with _ | _
      · simp [anyApplies, happlies, heffect]
      · simp [anyApplies, happlies, heffect, ih]
    · simp [anyApplies, happlies, ih]

theorem anyApplies_append (statements statements' : List Statement)
    (effect : Effect) :
    anyApplies (statements ++ statements') effect action resource =
      (anyApplies statements effect action resource ||
        anyApplies statements' effect action resource) :=
  any_append

/-- The loops over policies and roles return nothing if a statement denies, and
otherwise whether one allows. -/
theorem rolePolicies_eq (policies : List Policy) :
    rolePolicies action resource ret policies =
      let statements := policies.flatMap Policy.statements
      if anyApplies statements .deny action resource then none
      else some (if anyApplies statements .allow action resource then .allow
        else ret) := by
  induction policies generalizing ret with
  | nil => rfl
  | cons policy rest ih =>
    simp only [rolePolicies, Policy.checkAccess, checkAccessLoop_eq,
      flatMap_cons, anyApplies_append]
    by_cases hdeny : anyApplies policy.statements .deny action resource
    · simp [hdeny]
    · by_cases hallow : anyApplies policy.statements .allow action resource
      · simp [hdeny, hallow, ih]
      · simp [hdeny, hallow, ih]

theorem userRoles_eq (roles : List Role) :
    userRoles action resource ret roles =
      let statements := roles.flatMap fun role =>
        role.policies.flatMap Policy.statements
      if anyApplies statements .deny action resource then none
      else some (if anyApplies statements .allow action resource then .allow
        else ret) := by
  induction roles generalizing ret with
  | nil => rfl
  | cons role rest ih =>
    simp only [userRoles, rolePolicies_eq, flatMap_cons, anyApplies_append]
    by_cases hdeny : anyApplies (role.policies.flatMap Policy.statements)
        .deny action resource
    · simp [hdeny]
    · by_cases hallow : anyApplies (role.policies.flatMap Policy.statements)
          .allow action resource
      · simp [hdeny, hallow, ih]
      · simp [hdeny, hallow, ih]

theorem User.userRoles_eq (user : User) :
    userRoles action resource ret user.roles =
      if anyApplies user.statements .deny action resource then none
      else some (if anyApplies user.statements .allow action resource
        then .allow else ret) :=
  Auth.userRoles_eq action resource ret user.roles

end Loops

/-- The actions of a text are the one it names or those it matches. -/
theorem mem_expandAction (actionStr : Bytes) (a : Action) :
    (∃ actions, expandAction actionStr = .ok actions ∧ a ∈ actions) ↔
      a ≠ .unknown ∧
        if wildcards.star ∉ actionStr then a = actionFromStr actionStr
        else if actionStr = ascii "*" then a = .allActions
        else a ≠ .allActions ∧ Matches wildcards actionStr (actionToStr a) := by
  have hall : a ∈ Action.all ↔ a ≠ .unknown := by
    revert a
    exact forall_action (by decide) (by decide)
  have hfree (hne : a ≠ .allActions) : StarFree actionStr (actionToStr a) :=
    .inr (wildcard_notMem_actionToStr a hne)
  unfold expandAction
  split_ifs
  · simp +contextual
  · simp only [Except.ok.injEq, exists_eq_left', mem_filter, hall]
    grind [matches_of_resourceMatch, resourceMatch_of_matches]
  · split <;> grind

/-! ## Who is authorized -/

/-- The public permissions of the bucket grant the action. -/
def PublicAllows (cache : AuthCache) (resource : Bytes)
    (action : Action) : Prop :=
  ∃ info, cache.bucketInfo resource = some info ∧
    hasSimplePermission info.publicPerms action = true

/-- The user has a permission for the bucket that grants the action. -/
def BucketAllows (cache : AuthCache) (resource : Bytes) (action : Action)
    (user : User) : Prop :=
  ∃ info, cache.bucketInfo resource = some info ∧
    ∃ perm, user.bucketPermissions info.id = some perm ∧
      hasSimplePermission perm action = true

/-- The user id that requests with an access key are authorized with. -/
def AuthCache.userId (cache : AuthCache) (accessKey : Bytes) : Option ℤ :=
  if accessKey = [] then some (-1)
  else do
    let key ← cache.accessKeys accessKey
    if key.userId = 0 then cache.sessionUsers accessKey else some key.userId

def AuthCache.caller (cache : AuthCache) (accessKey : Bytes) : Option User :=
  (cache.userId accessKey).bind fun userId =>
    if userId < 0 then none else cache.users userId

section Authorized

variable {cache : AuthCache} {resource accessKey : Bytes} {action : Action}

theorem isAuthorizedNoLock_iff {userId : ℤ} :
    isAuthorizedNoLock cache resource action userId = true ↔
      PublicAllows cache resource action ∨
        ∃ user, (if userId < 0 then none else cache.users userId) =
            some user ∧
          anyApplies user.statements .deny action resource = false ∧
          (anyApplies user.statements .allow action resource = true ∨
            BucketAllows cache resource action user) := by
  unfold isAuthorizedNoLock
  have hpublic : (cache.bucketInfo resource).any
        (fun info => hasSimplePermission info.publicPerms action) = true ↔
      PublicAllows cache resource action := by
    simp [PublicAllows, Option.any_eq_true]
  by_cases hpub : PublicAllows cache resource action
  · simp [hpublic, hpub]
  · simp only [hpublic, hpub, if_false, false_or]
    by_cases hneg : userId < 0
    · simp [hneg]
    · simp only [hneg, if_false]
      rcases huser : cache.users userId with _ | user
      · simp
      · simp only [User.userRoles_eq, Option.some.injEq, exists_eq_left']
        by_cases hdeny : anyApplies user.statements .deny action resource
        · simp [hdeny]
        · by_cases hallow : anyApplies user.statements .allow action resource
          · simp [hdeny, hallow]
          · rcases hinfo : cache.bucketInfo resource with _ | info
            · simp [hdeny, hallow, BucketAllows, hinfo]
            · rcases hperm : user.bucketPermissions info.id with _ | perm
              · simp [hdeny, hallow, BucketAllows, hinfo, hperm]
              · simp [hdeny, hallow, BucketAllows, hinfo, hperm]

theorem isAuthorized_eq :
    isAuthorized cache resource action accessKey =
      (cache.userId accessKey).any
        (isAuthorizedNoLock cache resource action) := by
  unfold isAuthorized AuthCache.userId
  by_cases hempty : accessKey = []
  · simp [hempty]
  · simp only [hempty, if_false]
    rcases hkey : cache.accessKeys accessKey with _ | key
    · simp
    · by_cases hzero : key.userId = 0
      · rcases cache.sessionUsers accessKey with _ | userId
        · simp [hzero]
        · simp [hzero]
      · simp [hzero]

/-- What is decided, in terms of the statements that the code finds to
apply. -/
theorem isAuthorized_iff_applies :
    isAuthorized cache resource action accessKey = true ↔
      (cache.userId accessKey).isSome ∧ PublicAllows cache resource action ∨
        ∃ user, cache.caller accessKey = some user ∧
          anyApplies user.statements .deny action resource = false ∧
          (anyApplies user.statements .allow action resource = true ∨
            BucketAllows cache resource action user) := by
  rw [isAuthorized_eq]
  unfold AuthCache.caller
  rcases huser : cache.userId accessKey with _ | userId
  · simp
  · simp [isAuthorizedNoLock_iff]

end Authorized

/-! ## Matching statements -/

/-- The statement is about the action, and the resource is in the language of
one of its patterns. -/
def Statement.IsMatch (stmt : Statement) (action : Action)
    (resource : Bytes) : Prop :=
  (action ∈ stmt.actions ∨ .allActions ∈ stmt.actions) ∧
    ∃ resPattern ∈ stmt.resources, Matches wildcards resPattern resource

/-- A statement of this effect that is attached to the user of the access key
matches. -/
def StatementMatches (cache : AuthCache) (resource : Bytes) (action : Action)
    (accessKey : Bytes) (effect : Effect) : Prop :=
  ∃ user, cache.caller accessKey = some user ∧
    ∃ stmt ∈ user.statements, stmt.effect = effect ∧
      stmt.IsMatch action resource

/-- A statement or a permission of the user grants the action. -/
def UserGranted (cache : AuthCache) (resource : Bytes) (action : Action)
    (accessKey : Bytes) : Prop :=
  StatementMatches cache resource action accessKey .allow ∨
    ∃ user, cache.caller accessKey = some user ∧
      BucketAllows cache resource action user

def Granted (cache : AuthCache) (resource : Bytes) (action : Action)
    (accessKey : Bytes) : Prop :=
  PublicAllows cache resource action ∨
    UserGranted cache resource action accessKey

/-- No star of a pattern meets a `*` of the resource, for all statements of the
user. -/
def PlainStatements (cache : AuthCache) (resource accessKey : Bytes) : Prop :=
  ∀ user, cache.caller accessKey = some user →
    ∀ stmt ∈ user.statements, ∀ resPattern ∈ stmt.resources,
      StarApart resPattern resource

/-- The same users, with their statements in another order. -/
structure Reordered (cache cache' : AuthCache) : Prop where
  accessKeys : cache'.accessKeys = cache.accessKeys
  sessionUsers : cache'.sessionUsers = cache.sessionUsers
  buckets : cache'.buckets = cache.buckets
  users : ∀ userId, Option.Rel (fun user user' : User =>
    user.statements.Perm user'.statements ∧
      user.bucketPermissions = user'.bucketPermissions)
    (cache.users userId) (cache'.users userId)

section Matching

variable {cache cache' : AuthCache} {resource accessKey : Bytes}
  {action : Action} {stmt : Statement}

theorem Statement.isMatch_of_applies (h : stmt.applies action resource = true) :
    stmt.IsMatch action resource := by
  simp only [Statement.applies, Bool.and_eq_true, Bool.or_eq_true,
    decide_eq_true_eq, any_eq_true] at h
  obtain ⟨haction, resPattern, hmem, hmatch⟩ := h
  exact ⟨haction, resPattern, hmem, matches_of_resourceMatch hmatch⟩

theorem Statement.applies_of_isMatch
    (hapart : ∀ resPattern ∈ stmt.resources, StarApart resPattern resource)
    (h : stmt.IsMatch action resource) :
    stmt.applies action resource = true := by
  obtain ⟨haction, resPattern, hmem, hmatch⟩ := h
  simp only [Statement.applies, Bool.and_eq_true, Bool.or_eq_true,
    decide_eq_true_eq, any_eq_true]
  exact ⟨haction, resPattern, hmem,
    resourceMatch_of_starApart (hapart resPattern hmem) hmatch⟩

theorem isMatch_of_anyApplies {statements : List Statement} {effect : Effect}
    (h : anyApplies statements effect action resource = true) :
    ∃ stmt ∈ statements, stmt.effect = effect ∧
      stmt.IsMatch action resource := by
  simp only [anyApplies, any_eq_true, Bool.and_eq_true,
    decide_eq_true_eq] at h
  obtain ⟨stmt, hmem, heffect, happlies⟩ := h
  exact ⟨stmt, hmem, heffect, Statement.isMatch_of_applies happlies⟩

theorem anyApplies_iff_isMatch {statements : List Statement}
    (hapart : ∀ stmt ∈ statements, ∀ resPattern ∈ stmt.resources,
      StarApart resPattern resource) {effect : Effect} :
    anyApplies statements effect action resource = true ↔
      ∃ stmt ∈ statements, stmt.effect = effect ∧
        stmt.IsMatch action resource := by
  refine ⟨isMatch_of_anyApplies, ?_⟩
  rintro ⟨stmt, hmem, heffect, hmatch⟩
  simp only [anyApplies, any_eq_true, Bool.and_eq_true,
    decide_eq_true_eq]
  exact ⟨stmt, hmem, heffect,
    Statement.applies_of_isMatch (hapart stmt hmem) hmatch⟩

theorem isAuthorized_of_not_granted
    (h : ¬ Granted cache resource action accessKey) :
    isAuthorized cache resource action accessKey = false := by
  rw [Bool.eq_false_iff, Ne, isAuthorized_iff_applies]
  rintro (⟨-, hpublic⟩ | ⟨user, huser, -, happlies | hbucket⟩)
  · exact h (.inl hpublic)
  · exact h (.inr (.inl ⟨user, huser, isMatch_of_anyApplies happlies⟩))
  · exact h (.inr (.inr ⟨user, huser, hbucket⟩))

/-- The order of roles, policies and statements does not matter. -/
theorem isAuthorized_reordered (h : Reordered cache cache') :
    isAuthorized cache' resource action accessKey =
      isAuthorized cache resource action accessKey := by
  have hinfo : cache'.bucketInfo resource = cache.bucketInfo resource := by
    simp only [AuthCache.bucketInfo, h.buckets]
  have huserId : cache'.userId accessKey = cache.userId accessKey := by
    simp only [AuthCache.userId, h.accessKeys, h.sessionUsers]
  rw [isAuthorized_eq, isAuthorized_eq, huserId]
  rcases hid : cache.userId accessKey with _ | userId
  · rfl
  · simp only [Option.any_some]
    rw [Bool.eq_iff_iff, isAuthorizedNoLock_iff, isAuthorizedNoLock_iff]
    have hpublic : PublicAllows cache' resource action ↔
        PublicAllows cache resource action := by
      simp only [PublicAllows, hinfo]
    rw [hpublic]
    refine or_congr_right ?_
    by_cases hneg : userId < 0
    · simp [hneg]
    · simp only [hneg, if_false]
      have hrel := h.users userId
      rcases huser : cache.users userId with _ | user <;>
        rcases huser' : cache'.users userId with _ | user' <;>
        rw [huser, huser'] at hrel
      · simp
      · cases hrel
      · cases hrel
      · obtain ⟨hperm, hpermissions⟩ := Option.rel_some_some.mp hrel
        have hany : ∀ effect,
            anyApplies user'.statements effect action resource =
              anyApplies user.statements effect action resource :=
          fun effect => hperm.symm.any_eq
        simp only [Option.some.injEq, exists_eq_left', hany, BucketAllows,
          hinfo, hpermissions]

end Matching

section Granted

variable {cache : AuthCache} {resource accessKey : Bytes} {action : Action}

/-- What is decided, in terms of matching statements: public permissions come
before statements that deny. -/
theorem isAuthorized_iff_isMatch
    (hplain : PlainStatements cache resource accessKey) :
    isAuthorized cache resource action accessKey = true ↔
      (cache.userId accessKey).isSome ∧ PublicAllows cache resource action ∨
        UserGranted cache resource action accessKey ∧
          ¬ StatementMatches cache resource action accessKey .deny := by
  rw [isAuthorized_iff_applies]
  refine or_congr_right ?_
  constructor
  · rintro ⟨user, huser, hdeny, hallow⟩
    refine ⟨?_, ?_⟩
    · rcases hallow with hallow | hallow
      · exact .inl ⟨user, huser, isMatch_of_anyApplies hallow⟩
      · exact .inr ⟨user, huser, hallow⟩
    · rintro ⟨user', huser', hmatch⟩
      obtain rfl := Option.some.inj (huser.symm.trans huser')
      rw [(anyApplies_iff_isMatch (hplain user huser)).mpr hmatch] at hdeny
      exact absurd hdeny (by simp)
  · rintro ⟨hgranted, hdeny⟩
    have hnot : ∀ user, cache.caller accessKey = some user →
        anyApplies user.statements .deny action resource = false := by
      intro user huser
      rw [Bool.eq_false_iff]
      exact fun h => hdeny ⟨user, huser, isMatch_of_anyApplies h⟩
    rcases hgranted with ⟨user, huser, hmatch⟩ | ⟨user, huser, hbucket⟩
    · exact ⟨user, huser, hnot user huser,
        .inl ((anyApplies_iff_isMatch (hplain user huser)).mpr hmatch)⟩
    · exact ⟨user, huser, hnot user huser, .inr hbucket⟩

theorem not_statementMatches_of_unknown {effect : Effect}
    (h : ¬ (cache.userId accessKey).isSome) :
    ¬ StatementMatches cache resource action accessKey effect := by
  rintro ⟨user, huser, -⟩
  rw [Option.not_isSome_iff_eq_none] at h
  simp [AuthCache.caller, h] at huser

/-- Where the decision is the one over all statements: what is public must not
be denied, and must not be asked for with an unknown key. -/
theorem isAuthorized_iff_iff
    (hplain : PlainStatements cache resource accessKey) :
    (isAuthorized cache resource action accessKey = true ↔
      Granted cache resource action accessKey ∧
        ¬ StatementMatches cache resource action accessKey .deny) ↔
    (PublicAllows cache resource action →
      (cache.userId accessKey).isSome ∧
        ¬ StatementMatches cache resource action accessKey .deny) := by
  rw [isAuthorized_iff_isMatch hplain, Granted]
  constructor
  · intro hiff hpublic
    by_cases hknown : (cache.userId accessKey).isSome
    · exact ⟨hknown, (hiff.mp (.inl ⟨hknown, hpublic⟩)).2⟩
    · have hdeny : ¬ StatementMatches cache resource action accessKey .deny :=
        not_statementMatches_of_unknown hknown
      rcases hiff.mpr ⟨.inl hpublic, hdeny⟩ with hsome | ⟨hgranted, -⟩
      · exact ⟨hsome.1, hdeny⟩
      · rcases hgranted with hallow | ⟨user, huser, -⟩
        · exact absurd hallow (not_statementMatches_of_unknown hknown)
        · rw [Option.not_isSome_iff_eq_none] at hknown
          simp [AuthCache.caller, hknown] at huser
  · intro hpublic
    constructor
    · rintro (⟨-, hpub⟩ | ⟨hgranted, hdeny⟩)
      · exact ⟨.inl hpub, (hpublic hpub).2⟩
      · exact ⟨.inr hgranted, hdeny⟩
    · rintro ⟨hpub | hgranted, hdeny⟩
      · exact .inl ⟨(hpublic hpub).1, hpub⟩
      · exact .inr ⟨hgranted, hdeny⟩

end Granted

/-- One user, who may do everything except in one bucket. -/
def exceptBucket : AuthCache where
  accessKeys key := if key = ascii "key" then some ⟨1, 1, []⟩ else none
  sessionUsers _ := none
  users userId :=
    if userId = 1 then
      some ⟨[⟨[⟨[⟨.deny, [.allActions], [ascii "arn:aws:s3:::b/*"]⟩,
        ⟨.allow, [.allActions], [ascii "*"]⟩]⟩]⟩], fun _ => none⟩
    else none
  buckets _ := none

/-- The bucket in which the user may do nothing can be read by everybody. -/
def publicBucket : AuthCache :=
  { exceptBucket with
    buckets := fun bucketName =>
      if bucketName = ascii "b" then some ⟨1, bucketPermissionRead⟩ else none }

end Hs5.Auth

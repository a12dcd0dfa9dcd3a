import Hs5.Durability.CallsSafe

/-!
# Acknowledged commits

A commit is acknowledged at four places: when there is nothing to do, after a
sync of the log, after a commit of the index, and together with a commit
before it.  In runs of safe steps, the entries before a commit that is
acknowledged without errors are durable.
-/

namespace Hs5

open List Transition WalFile

variable {cfg : WalConfig}

namespace Store

variable {s s' : Store} {n m : ℕ}

/-! ## Items of the open transaction -/

/-- The items of the open transaction that have to be logged are in the file
in use. -/
def LoggedTxn (s : Store) : Prop :=
  ∀ k i chain item, s.enqueued[k]? = some (.items chain) →
    chain[i]? = some item → item.action.needsWrite = true →
      .enqueued k i ∈ s.openTxn →
        .enqueued k i ∈ s.wal.loggedIn s.wal.useAltFile

theorem mem_loggedIn_appendItems {w : WalFile ItemId Unit} {transid : ℤ}
    {items : List ItemId} {id : ItemId} (h : id ∈ items) :
    id ∈ (w.appendItems transid items).loggedIn w.useAltFile := by
  induction items generalizing w with
  | nil => cases h
  | cons item rest ih =>
    rcases mem_cons.mp h with rfl | h
    · have hgrown := (w.append (.fragInfo transid id)).grown_appendItems
        transid rest
      refine mem_loggedItems.mpr ⟨⟨w.seqNo, .fragInfo transid id⟩,
        (hgrown.files _).entries.subset ?_, transid, rfl⟩
      rw [append_files_self]
      exact mem_append_right _ mem_cons_self
    · exact ih h

theorem loggedIn_grown {w w' : WalFile ItemId Unit} (h : WalFile.Grown w w')
    {id : ItemId} (hid : id ∈ w.loggedIn w.useAltFile) :
    id ∈ w'.loggedIn w'.useAltFile := by
  obtain ⟨r, hr, hitem⟩ := mem_loggedItems.mp hid
  rw [h.useAltFile]
  exact mem_loggedItems.mpr ⟨r, (h.files _).entries.subset hr, hitem⟩

theorem loggedIn_step (hd : DataInv cfg Called s) {e : Event}
    (hs : Steps cfg s e s') (hpc : ∀ reset, s.pc ≠ .lmdbReset reset)
    {id : ItemId} (hid : id ∈ s.wal.loggedIn s.wal.useAltFile) :
    id ∈ s'.wal.loggedIn s'.wal.useAltFile := by
  cases logChange_step hs with
  | grow hgrown => exact loggedIn_grown hgrown hid
  | dataThread hthread hused hkept =>
    obtain ⟨-, rfl, -⟩ := hd.log.queue.synced_item (by rw [hthread]; rfl)
      (by rw [hthread]; rfl)
    have hfile : s'.wal.files s.wal.useAltFile = s.wal.files
        s.wal.useAltFile := hkept _ (by simp [switchItem])
    rwa [WalFile.loggedIn, hused, hfile]
  | reset hno | switch hno => exact absurd hno (hpc _)

theorem LoggedTxn.keep (h : s.LoggedTxn) (hd : DataInv cfg Called s)
    (hi : ItemInv s) (hc : ChainInv s []) {e : Event} (hs : Steps cfg s e s')
    (hopen : ∀ id ∈ s'.openTxn, id ∈ s.openTxn) : s'.LoggedTxn := by
  intro k i chain item hentry hitem hneeds hid
  have hold := hopen _ hid
  have hk := (hc.processed k i (.inr hold)).trans_le hc.bound
  rw [(grows_step hs).entry hk] at hentry
  refine loggedIn_step hd hs ?_ (h k i chain item hentry hitem hneeds hold)
  intro reset hpc
  rw [hi.closed (.inr ⟨reset, hpc⟩)] at hold
  cases hold

variable {callbacks : List (List (ℕ × Bool))} {routes : Route → Prop}
  {freemap : List ℕ}

theorem LoggedTxn.applyWork {hand : List Work} (h : s.LoggedTxn)
    (hheld : QueuedChain s hand) (hwal : cfg.walFile = true)
    (hmeta : cfg.walWriteMeta = true) {startup : Bool}
    (hstartup : startup = true →
      ∀ work ∈ hand, ∀ k j, work.id ≠ .enqueued k j) {matched : Bool}
    {logOk : Bool}
    (herrors : (s.applyWork cfg startup hand matched callbacks freemap
      logOk).commitErrors = 0) :
    (s.applyWork cfg startup hand matched callbacks freemap
      logOk).LoggedTxn := by
  cases hand with
  | nil => exact h
  | cons work linked =>
  intro k i chain item hentry hitem hneeds hid
  rcases openTxn_applyWork.mp hid with hold | hwork
  · exact loggedIn_grown (s.wal.grown_appendItems _ _)
      (h k i chain item hentry hitem hneeds hold)
  have hneeds' : work.needsWrite = true := by
    generalize hhand : work :: linked = hand at hheld
    cases hheld with
    | other hother =>
      exact absurd hwork (hother work (hhand ▸ mem_cons_self) k i)
    | rest hentry' hk hdone =>
      obtain ⟨⟨item', hitem', rfl⟩, -⟩ := drop_workOf_eq_cons hhand.symm
      obtain ⟨rfl, rfl⟩ := ItemId.enqueued.inj hwork
      obtain rfl := Entry.items.inj
        (Option.some.inj (hentry'.symm.trans hentry))
      obtain rfl := Option.some.inj (hitem'.symm.trans hitem)
      exact hneeds
  have hlive : startup = false := by
    cases startup with
    | false => rfl
    | true => exact absurd hwork (hstartup rfl work mem_cons_self k i)
  have hlog : logOk = true := by
    by_contra hno
    rw [Bool.not_eq_true] at hno
    simp [Store.applyWork, hwal, hmeta, hneeds', hlive, hno] at herrors
  have hused : (s.applyWork cfg startup (work :: linked) matched callbacks
      freemap logOk).wal.useAltFile = s.wal.useAltFile :=
    (s.wal.grown_appendItems _ _).useAltFile
  rw [hused, ← hwork]
  refine mem_loggedIn_appendItems ?_
  simp [hwal, hmeta, hneeds', hlive, hlog]

theorem LoggedTxn.process (h : s.LoggedTxn) (hc : ChainInv s [])
    (hwal : cfg.walFile = true) (hmeta : cfg.walWriteMeta = true)
    {matched logOk : Bool}
    (hs : Steps cfg s (.process matched callbacks freemap logOk) s')
    (herrors : s'.commitErrors = 0) : s'.LoggedTxn := by
  cases hs with
  | @processCallback _ _ _ _ chain rest _ hqueue =>
    apply LoggedTxn.applyWork
    case h => exact h
    case hheld =>
      refine (hc.queue chain ?_).mono (prefix_refl _) le_rfl
        fun _ hid => hid
      rw [hqueue]
      exact mem_cons_self
    case hstartup => exact fun hno => by cases hno
    all_goals assumption
  | processStartup =>
    apply LoggedTxn.applyWork
    case h => exact h
    case hheld | hstartup => simp [QueuedChain.other]
    all_goals assumption
  | processEntry _ _ hentry =>
    apply LoggedTxn.applyWork
    case h => exact h
    case hheld =>
      exact .rest (p := 0) hentry (Nat.lt_succ_self _)
        fun i hi => absurd hi (Nat.not_lt_zero i)
    case hstartup => exact fun hno => by cases hno
    all_goals assumption

/-! ## Phases of a commit -/

/-- What the commit thread can rely on at each place.  The syncs it waits for
are taken as complete. -/
def Phase (cfg : WalConfig) (s : Store) : Prop :=
  match s.pc with
  | .idle => s.canSkipCommit = true → ∀ k < s.popped, s.EntryDurable k
  | .walBegin _ => cfg.walFile = true ∧ cfg.walWriteMeta = true
  | .walDataSync _ start => (cfg.walFile = true ∧ cfg.walWriteMeta = true) ∧
      ∀ k < s.popped, (s.syncedTo start 0).CallsDurable (· = .unlogged) k
  | .walAppendSync _ => (cfg.walFile = true ∧ cfg.walWriteMeta = true) ∧
      ∀ k < s.popped, s.CallsDurable (· = .unlogged) k
  | .walSync _ start => ∀ k < s.popped, (s.syncedTo 0 start).EntryDurable k
  | .walFinish _ _ => ∀ k < s.popped, s.EntryDurable k
  | .lmdbBegin _ _ => True
  | .lmdbDataSync _ _ start =>
    ∀ k < s.popped, (s.syncedTo start 0).CallsDurable (fun _ => True) k
  | .lmdbWait _ => ∀ k < s.popped, s.CallsDurable (· = .unlogged) k
  | .lmdbWalSync _ _ start =>
    ∀ k < s.popped, (s.syncedTo 0 start).CallsDurable (fun _ => True) k
  | .lmdbTxn _ _ => ∀ k < s.popped, s.CallsDurable (fun _ => True) k
  | .lmdbFinish _ _ | .lmdbReset _ => ∀ k < s.popped, s.EntryDurable k

structure AckInv (cfg : WalConfig) (s : Store) : Prop where
  data : DataInv cfg Called s
  items : ItemInv s
  chains : ChainInv s []
  calls : CallsSafe cfg s
  chainLogged : cfg.walFile = true → cfg.walWriteMeta = true →
    ∀ chain, .items chain ∈ s.enqueued → ChainLogged chain
  logged : cfg.walFile = true → cfg.walWriteMeta = true →
    s.commitErrors = 0 → s.LoggedTxn
  phase : s.commitErrors = 0 → s.Phase cfg
  acked : ∀ a ∈ s.acks, a.commit < s.popped ∧
    (a.errors = 0 → ∀ k < a.commit, s.EntryDurable k)

variable (h : AckInv cfg s) {e : Event} (hs : Steps cfg s e s')

include h hs in
theorem AckInv.calls_step (hm : m = 0 ∨ ∀ reset, s.pc ≠ .lmdbReset reset)
    (hcalls : ∀ k < s.popped, (s.syncedTo n m).CallsDurable routes k) :
    ∀ k < s.popped, (s'.syncedTo n m).CallsDurable routes k :=
  fun k hk => (hcalls k hk).step h.data h.chains hs hm hk

include h hs in
theorem AckInv.entries_step (hm : m = 0 ∨ ∀ reset, s.pc ≠ .lmdbReset reset)
    (hentries : ∀ k < s.popped, (s.syncedTo n m).EntryDurable k) :
    ∀ k < s.popped, (s'.syncedTo n m).EntryDurable k :=
  fun k hk => (hentries k hk).step h.data h.items h.chains hs hm hk

include h hs in
theorem AckInv.durable_step {k : ℕ} (hk : k < s.popped)
    (hentry : s.EntryDurable k) : s'.EntryDurable k := by
  rw [← s.syncedTo_zero] at hentry
  rw [← s'.syncedTo_zero]
  exact hentry.step h.data h.items h.chains hs (.inl rfl) hk

include h hs in
theorem AckInv.phase_keep (hphase : s.Phase cfg) (hpc : s'.pc = s.pc)
    (hpopped : s'.popped = s.popped)
    (hskip : s'.canSkipCommit = true → s.canSkipCommit = true) :
    s'.Phase cfg := by
  have hcalls : ∀ {routes}, (∀ k < s.popped, s.CallsDurable routes k) →
      ∀ k < s.popped, s'.CallsDurable routes k := by
    intro routes hold
    rw [← s.syncedTo_zero] at hold
    rw [← s'.syncedTo_zero]
    exact h.calls_step hs (.inl rfl) hold
  unfold Phase at hphase ⊢
  rw [hpc, hpopped]
  cases hcase : s.pc with
  | idle =>
    simp only [hcase] at hphase ⊢
    exact fun hs' k hk => h.durable_step hs hk (hphase (hskip hs') k hk)
  | walBegin cur =>
    simpa only [hcase] using hphase
  | walDataSync cur start =>
    simp only [hcase] at hphase ⊢
    exact ⟨hphase.1, h.calls_step hs (.inl rfl) hphase.2⟩
  | walAppendSync cur =>
    simp only [hcase] at hphase ⊢
    exact ⟨hphase.1, hcalls hphase.2⟩
  | walSync cur start =>
    simp only [hcase] at hphase ⊢
    exact h.entries_step hs (.inr (by simp [hcase])) hphase
  | lmdbBegin cur reset => trivial
  | lmdbDataSync cur reset start =>
    simp only [hcase] at hphase ⊢
    exact h.calls_step hs (.inl rfl) hphase
  | lmdbWalSync cur reset start =>
    simp only [hcase] at hphase ⊢
    exact h.calls_step hs (.inr (by simp [hcase])) hphase
  | lmdbWait cur | lmdbTxn cur reset =>
    simp only [hcase] at hphase ⊢
    exact hcalls hphase
  | walFinish cur ok | lmdbFinish cur reset | lmdbReset reset =>
    simp only [hcase] at hphase ⊢
    exact fun k hk => h.durable_step hs hk (hphase k hk)

/-! ## What a commit finds -/

theorem callsDurable_of_returned (hc : ChainInv s [])
    (hall : ∀ (c : ℕ) (call : Call), s.calls[c]? = some call →
      call.stage = .returned → routes call.route →
        (s.syncedTo n m).DataDurable (call.write c)) :
    ∀ k < s.popped, (s.syncedTo n m).CallsDurable routes k := by
  intro k _ entry hentry c hmem
  have hin : entry ∈ s.enqueued := mem_of_getElem? hentry
  obtain ⟨call, hcall, hstage⟩ := hc.returned entry hin c hmem
  exact ⟨call, hcall, hall c call hcall hstage⟩

theorem callsDurable_dataSize (hd : DataInv cfg Called s) (hc : ChainInv s [])
    (hroutes : ∀ (c : ℕ) (call : Call), s.calls[c]? = some call →
      routes call.route → call.route ≠ .queued) :
    ∀ k < s.popped, (s.syncedTo s.dataFile.size 0).CallsDurable routes k := by
  refine callsDurable_of_returned hc ?_
  intro c call hcall hstage hroute
  have hw := (hd.calls c call hcall).written (hroutes c call hcall hroute)
    (.inr hstage)
  exact .inl (hw.mono fun _ hx => SyncedLog.durable_sync_size hx)

theorem callsDurable_clean (hc : ChainInv s []) (hcs : CallsSafe cfg s)
    (herrors : s.commitErrors = 0) (hwal : cfg.walFile = true)
    (hclean : cfg.walWriteData < 0 ∨ s.dataFileDirty = false)
    (hpc : ∀ cur start, s.pc ≠ .walDataSync cur start) :
    ∀ k < s.popped, s.CallsDurable (· = .unlogged) k := by
  rw [← s.syncedTo_zero]
  refine callsDurable_of_returned hc ?_
  intro c call hcall hstage hroute
  rw [s.syncedTo_zero]
  have hsafe := hcs c call hcall
  rcases hclean with hneg | hclean
  · exact absurd (hsafe.unlogged hwal hroute) (not_le.mpr hneg)
  · rcases hsafe.synced herrors hwal hroute hstage with
      hw | hdirty | ⟨cur, start, hno, -⟩
    · exact .inl hw
    · rw [hclean] at hdirty
      cases hdirty
    · exact absurd hno (hpc cur start)

theorem callsDurable_logSize (hc : ChainInv s []) (hcs : CallsSafe cfg s)
    (hunlogged : ∀ k < s.popped, s.CallsDurable (· = .unlogged) k) :
    ∀ k < s.popped, (s.syncedTo 0 s.wal.currentFile.size).CallsDurable
      (fun _ => True) k := by
  intro k hk entry hentry c hmem
  obtain ⟨call, hcall, hdurable⟩ := hunlogged k hk entry hentry c hmem
  refine ⟨call, hcall, fun _ => ?_⟩
  by_cases hroute : call.route = .unlogged
  · exact (hdurable hroute).syncedTo _ _
  · have hin : entry ∈ s.enqueued := mem_of_getElem? hentry
    obtain ⟨call', hcall', hstage⟩ := hc.returned entry hin c hmem
    obtain rfl : call = call' := Option.some.inj (hcall.symm.trans hcall')
    rcases (hcs c call hcall).logged hroute hstage with hcur | hd
    · exact .inr (synced_of_inCurrent hcur)
    · exact hd.syncedTo _ _

theorem itemsDurable_logSize (hc : ChainInv s []) (hlog : s.LoggedTxn)
    (hchain : ∀ chain, .items chain ∈ s.enqueued → ChainLogged chain)
    (hbusy : s.pc ≠ .idle) :
    ∀ k < s.popped, (s.syncedTo 0 s.wal.currentFile.size).ItemsDurable k := by
  intro k hk chain hentry j item hitem hchanges
  have hj := (List.getElem?_eq_some_iff.mp hitem).1
  rcases hc.no_hand hentry hk hj hbusy with hi | hi | hi
  · exact .inl hi
  · obtain ⟨i, hij, item', hitem', hneeds⟩ :=
      (hchain chain (mem_of_getElem? hentry)).exists_logged hitem hchanges
    have hopen : .enqueued k i ∈ s.openTxn := by
      rcases hij.lt_or_eq with hlt | rfl
      · exact hc.order k i j hi hlt
      · exact hi
    obtain ⟨r, hr, transid, hp⟩ := mem_loggedItems.mp
      (hlog k i chain item' hentry hitem' hneeds hopen)
    exact .inr (.inr ⟨i, hij, transid, synced_of_inCurrent ⟨r, hr, hp⟩⟩)
  · exact .inr (.inl hi)

/-! ## Steps -/

include h hs in
theorem AckInv.phase_durable (hphase : ∀ k < s.popped, s.EntryDurable k)
    (hpopped : s'.popped = s.popped) : ∀ k < s'.popped, s'.EntryDurable k := by
  rw [hpopped]
  exact fun k hk => h.durable_step hs hk (hphase k hk)

theorem AckInv.callsDurable_dataSync (h : AckInv cfg s)
    (hcfg : cfg.walFile = false ∨ cfg.walWriteThread = false) :
    ∀ k < s.popped,
      (s.syncedTo s.dataFile.size 0).CallsDurable (fun _ => True) k := by
  refine callsDurable_dataSize h.data h.chains ?_
  intro c call hcall _ hroute
  rcases hcfg with hwal | hthread
  · have hno := (h.calls c call hcall).noWal hwal
    rw [hroute] at hno
    cases hno
  · have hno := (h.data.calls c call hcall).queued hroute
    rw [hthread] at hno
    cases hno

/-- A commit of the index that does not sync the data file finds the flag
unset. -/
theorem AckInv.callsDurable_lmdbBegin (h : AckInv cfg s)
    {cur : Option ℕ} {reset ok : Bool} (hok : AckSafe cfg s (.commitStep ok))
    (herrors : s.commitErrors = 0) (hpc : s.pc = .lmdbBegin cur reset)
    (hwal : cfg.walFile = true)
    (hthread : reset = true → cfg.walWriteThread = true) :
    ∀ k < s.popped, s.CallsDurable (· = .unlogged) k := by
  simp only [AckSafe, CommitSafe, hpc] at hok
  have hclean : s.dataFileDirty = false := by
    refine hok hwal ?_
    rintro ⟨hreset, hno⟩
    rw [hthread hreset] at hno
    cases hno
  exact callsDurable_clean h.chains h.calls herrors hwal (.inr hclean)
    (by simp [hpc])

theorem AckInv.entryDurable_txn (h : AckInv cfg s) {cur : Option ℕ}
    {reset : Bool} (hbusy : s.pc ≠ .idle)
    (hcalls : ∀ k < s.popped, s.CallsDurable (fun _ => True) k) :
    ∀ k < s.popped, EntryDurable { s with
      committed := s.committed ++ s.openTxn, openTxn := []
      pc := .lmdbFinish cur reset } k := by
  intro k hk
  refine ⟨hcalls k hk, ?_⟩
  intro chain hentry j item hitem _
  have hj := (List.getElem?_eq_some_iff.mp hitem).1
  rcases h.chains.no_hand hentry hk hj hbusy with hi | hi | hi
  · exact .inl (List.mem_append_left _ hi)
  · exact .inl (mem_append_right _ hi)
  · exact .inr (.inl hi)

theorem AckInv.phase_commitStep (h : AckInv cfg s) {ok : Bool}
    (hok : AckSafe cfg s (.commitStep ok))
    (hs : CommitStep cfg s s') (hc' : ChainInv s' []) (hcs' : CallsSafe cfg s')
    (hlog' : cfg.walFile = true → cfg.walWriteMeta = true → s'.LoggedTxn)
    (herrors' : s'.commitErrors = 0) : s'.Phase cfg := by
  have hs' : Steps cfg s (.commitStep ok) s' := .commitStep hs
  have herrors : s.commitErrors = 0 := hok.noErrors hs' herrors'
  have hphase := h.phase herrors
  have hpopped := (commitFrame_commitStep hs).popped
  cases hs with
  | @exchange cur hpc hdirty =>
    simp only [Phase, hpc] at hphase
    have hdurable : ∀ k < s.popped, (s.syncedTo s.dataFile.size
        0).CallsDurable (· = .unlogged) k := by
      refine callsDurable_dataSize h.data h.chains ?_
      intro c call _ hroute
      rw [hroute]
      simp
    exact ⟨hphase, hdurable⟩
  | @clean cur hpc hclean =>
    simp only [Phase, hpc] at hphase
    have hdurable := callsDurable_clean h.chains h.calls herrors hphase.1
      hclean (by simp [hpc])
    exact ⟨hphase, hdurable⟩
  | walDataSynced hpc | dataSynced hpc =>
    simp only [Phase, hpc, syncedTo_data] at hphase
    exact hphase
  | appendSync hpc =>
    simp only [Phase, hpc] at hphase
    obtain ⟨⟨hwal, hmeta⟩, hunlogged⟩ := hphase
    rw [← s.syncedTo_zero] at hunlogged
    have hunlogged' := h.calls_step hs' (.inl rfl) hunlogged
    rw [syncedTo_zero] at hunlogged'
    intro k hk
    exact ⟨callsDurable_logSize hc' hcs' hunlogged' k hk,
      itemsDurable_logSize hc' (hlog' hwal hmeta) (h.chainLogged hwal hmeta)
        (by simp) k hk⟩
  | walSynced hpc =>
    simp only [Phase, hpc, syncedTo_log] at hphase
    exact fun k hk => ⟨(hphase k hk).data, (hphase k hk).items⟩
  | walFinish hpc | finish hpc | keepLog hpc | resetLog hpc | switch hpc =>
    simp only [Phase, hpc] at hphase
    have hdurable := h.phase_durable hs' hphase hpopped
    first
      | exact hdurable
      | exact fun _ => hdurable
  | startDataSync hpc hcfg =>
    exact h.callsDurable_dataSync (hcfg.imp_right And.right)
  | startWait hpc hcfg =>
    exact h.callsDurable_lmdbBegin hok herrors hpc hcfg.1 fun _ => hcfg.2.1
  | startWalSync hpc hwal hcfg =>
    have hdurable := callsDurable_logSize h.chains h.calls
      (h.callsDurable_lmdbBegin hok herrors hpc hwal fun hr => (hcfg hr).1)
    exact hdurable
  | waited hpc hpending =>
    simp only [Phase, hpc] at hphase
    have hdurable := callsDurable_logSize h.chains h.calls hphase
    exact hdurable
  | lmdbWalSynced hpc =>
    simp only [Phase, hpc, syncedTo_log] at hphase
    exact hphase
  | txnCommitted hpc _ =>
    simp only [Phase, hpc] at hphase
    exact h.entryDurable_txn (by simp [hpc]) hphase
  | walDataFailed hpc | appendSyncFailed hpc | walSyncFailed hpc
  | dataSyncFailed hpc | lmdbWalSyncFailed hpc | switchFailed hpc =>
    exact absurd herrors' (Nat.succ_ne_zero _)

theorem entryDurable_of_empty {k : ℕ} {entry : Entry}
    (hentry : s.enqueued[k]? = some entry) (hcalls : entry.calls = [])
    (hchain : ∀ chain, entry = .items chain → chain = []) :
    s.EntryDurable k := by
  constructor
  · intro entry' hentry' c hc
    obtain rfl : entry = entry' := Option.some.inj (hentry.symm.trans hentry')
    rw [hcalls] at hc
    cases hc
  · intro chain hentry' j item hitem
    have hnil := hchain chain (Option.some.inj (hentry.symm.trans hentry'))
    rw [hnil] at hitem
    cases hitem

theorem phase_of_idle (hpc : s.pc = .idle)
    (hall : s.canSkipCommit = true → ∀ k < s.popped, s.EntryDurable k) :
    s.Phase cfg := by
  simpa only [Phase, hpc] using hall

section

variable (h : AckInv cfg s)

include h

theorem AckInv.phase_process {matched logOk : Bool} (hphase : s.Phase cfg)
    (hs : Steps cfg s (.process matched callbacks freemap logOk) s') :
    s'.Phase cfg := by
  have hold : s.pc = .idle → s.canSkipCommit = true →
      ∀ k < s.popped, s'.EntryDurable k := by
    intro hpc hskip k hk
    simp only [Phase, hpc] at hphase
    exact h.durable_step hs hk (hphase hskip k hk)
  cases hs with
  | @processCallback _ _ _ _ chain _ hpc =>
    cases chain with
    | nil => exact phase_of_idle hpc (hold hpc)
    | cons work linked => exact phase_of_idle hpc fun hno => by cases hno
  | processStartup hpc => exact phase_of_idle hpc fun hno => by cases hno
  | @processEntry _ _ _ _ chain hpc _ hentry =>
    cases chain with
    | nil =>
      refine phase_of_idle hpc ?_
      intro hskip k hk
      rcases Nat.lt_succ_iff_lt_or_eq.mp hk with hk | rfl
      · exact hold hpc hskip k hk
      · refine entryDurable_of_empty hentry rfl ?_
        exact fun chain hchain => (Entry.items.inj hchain).symm
    | cons item rest =>
      obtain ⟨work, linked, hwork⟩ : ∃ work linked,
          workOf s.popped (item :: rest) = work :: linked :=
        ⟨_, _, mapIdx_cons⟩
      rw [hwork]
      exact phase_of_idle hpc fun hno => by cases hno

theorem AckInv.phase_step {e : Event} (hok : AckSafe cfg s e)
    (hs : Steps cfg s e s') (hc' : ChainInv s' []) (hcs' : CallsSafe cfg s')
    (hlog' : cfg.walFile = true → cfg.walWriteMeta = true → s'.LoggedTxn)
    (herrors' : s'.commitErrors = 0) : s'.Phase cfg := by
  have hphase := h.phase (hok.noErrors hs herrors')
  by_cases he : e.background = true
  · have hsame := sameCommit_step he hs
    refine h.phase_keep hs hphase hsame.pc hsame.popped ?_
    rw [hsame.canSkipCommit]
    exact id
  have hstep := hs
  cases hs with
  | enqueue | skipCommit => exact h.phase_keep hstep hphase rfl rfl id
  | processCallback | processStartup | processEntry =>
    exact h.phase_process hphase hstep
  | takeCommit hpc _ _ hentry =>
    simp only [Phase, hpc] at hphase
    refine phase_of_idle hpc ?_
    intro hskip k hk
    rcases Nat.lt_succ_iff_lt_or_eq.mp hk with hk | rfl
    · exact h.durable_step hstep hk (hphase hskip k hk)
    · exact entryDurable_of_empty hentry rfl fun chain hno => by cases hno
  | beginWalCommit _ _ _ hmeta hwal => exact ⟨hwal, hmeta⟩
  | beginLmdbCommit | beginStartupCommit => trivial
  | commitStep hs => exact h.phase_commitStep hok hs hc' hcs' hlog' herrors'
  | _ => exact absurd rfl he

theorem AckInv.logged_step {e : Event} (hok : AckSafe cfg s e)
    (hs : Steps cfg s e s') (hwal : cfg.walFile = true)
    (hmeta : cfg.walWriteMeta = true)
    (herrors' : s'.commitErrors = 0) : s'.LoggedTxn := by
  have hold := h.logged hwal hmeta (hok.noErrors hs herrors')
  have hkeep : (∀ id ∈ s'.openTxn, id ∈ s.openTxn) → s'.LoggedTxn :=
    hold.keep h.data h.items h.chains hs
  have hstep := hs
  cases hs with
  | processCallback | processStartup | processEntry =>
    exact hold.process h.chains hwal hmeta hstep herrors'
  | commitStep hs =>
    apply hkeep
    intro id hid
    rcases (commitFrame_commitStep hs).items with ⟨-, hopen⟩ | ⟨-, hopen⟩
    · rwa [hopen] at hid
    · rw [hopen] at hid
      cases hid
  | _ => exact hkeep fun _ hid => hid

/-- A commit is acknowledged without errors only when all processed entries
are durable. -/
theorem AckInv.acks_step {e : Event} (hok : AckSafe cfg s e)
    (hs : Steps cfg s e s') :
    ∀ a ∈ s'.acks, a ∈ s.acks ∨ a.commit < s.popped ∧
      (a.errors = 0 → ∀ k < s.popped, s.EntryDurable k) := by
  intro a ha
  cases hs with
  | processCallback | processStartup | processEntry =>
    rw [(applyWork_frame _ _ _ _ _ _ _).2.1] at ha
    exact .inl ha
  | @skipCommit _ cur rest hpc _ hpending herrors hskip =>
    have hphase := h.phase herrors
    simp only [Phase, hpc] at hphase
    simp only [finishPendingCommits, ack, mem_append, mem_map] at ha
    rcases ha with (ha | ⟨c, hc, rfl⟩) | ⟨c, hc, rfl⟩
    · exact .inl ha
    · refine .inr ⟨h.chains.pending c (.inl ?_), fun _ => hphase hskip.1⟩
      rw [hpending, Option.mem_toList.mp hc |> Option.some.inj]
      exact mem_cons_self
    · refine .inr ⟨h.chains.pending c (.inl ?_), fun _ => hphase hskip.1⟩
      rw [hpending]
      exact mem_cons_of_mem _ hc
  | commitStep hs =>
    rcases (commitFrame_commitStep hs).acks a ha with ha | ⟨hacks, heq, hcur⟩
    · exact .inl ha
    · refine .inr ⟨h.chains.pending _ hcur.symm, fun hzero => ?_⟩
      have hphase := h.phase (heq ▸ hzero)
      cases hpc : s.pc with
      | walFinish cur ok | lmdbFinish cur reset =>
        simpa only [Phase, hpc] using hphase
      | _ =>
        rw [hpc] at hacks
        cases hacks
  | _ => exact .inl ha

theorem AckInv.step {e : Event} (hok : AckSafe cfg s e)
    (hs : Steps cfg s e s') : AckInv cfg s' := by
  have hchains := h.chains.step hs
  have hcalls := h.calls.step h.data hok hs
  refine ⟨h.data.step hs, h.items.step hs, hchains, hcalls, ?_,
    fun hwal hmeta herrors => h.logged_step hok hs hwal hmeta herrors,
    fun herrors => h.phase_step hok hs hchains hcalls
      (fun hwal hmeta => h.logged_step hok hs hwal hmeta herrors) herrors, ?_⟩
  · intro hwal hmeta chain hchain
    rcases enqueued_step hs with hsame | ⟨entry, rfl, hnew⟩
    · rw [hsame] at hchain
      exact h.chainLogged hwal hmeta chain hchain
    · rw [hnew, mem_append, mem_singleton] at hchain
      rcases hchain with hchain | rfl
      · exact h.chainLogged hwal hmeta chain hchain
      · exact hok hwal hmeta
  · have hgrows := grows_step hs
    intro a ha
    rcases h.acks_step hok hs a ha with ha | ⟨hlt, hdurable⟩
    · obtain ⟨hlt, hdurable⟩ := h.acked a ha
      exact ⟨hlt.trans_le hgrows.popped, fun hzero k hk =>
        h.durable_step hs (hk.trans hlt) (hdurable hzero k hk)⟩
    · exact ⟨hlt.trans_le hgrows.popped, fun hzero k hk =>
        h.durable_step hs (hk.trans hlt) (hdurable hzero k (hk.trans hlt))⟩

end

theorem ackInv_start {disk : Disk} (h : start cfg disk = some s) :
    AckInv cfg s := by
  obtain ⟨wal, hopen, rfl⟩ := Option.map_eq_some_iff.mp h
  have hopened := opened_openWal hopen
  have hfound : ∀ alt, ∀ d ∈ dataRecords (disk.records cfg alt),
      ¬ Called d := by
    intro alt d hd hcalled
    obtain ⟨r, hr, hp⟩ := mem_dataRecords.mp hd
    obtain ⟨-, r₀, -, rfl⟩ := mem_disk_records hr
    obtain ⟨d₀, -, rfl⟩ := recoveredRecord_data hp
    exact hcalled rfl
  refine ⟨dataInv_initial hopened (fun _ => hfound _) (fun _ _ => hfound _),
    itemInv_initial hopened, chainInv_initial disk wal, ?_, ?_, ?_, ?_, ?_⟩
  · intro c call hcall
    simp [initial] at hcall
  · simp [initial]
  · intro _ _ _ k i chain item _ _ _ hopen
    simp [initial] at hopen
  · intro _
    simp [Phase, initial]
  · simp [initial]

/-- In a run of safe steps, every commit that was acknowledged without errors
has only durable entries before it. -/
theorem entryDurable_of_run {disk : Disk} {s₀ s : Store}
    (hstart : start cfg disk = some s₀)
    (hrun : Run (step cfg) (AckSafe cfg) s₀ s) :
    ∀ a ∈ s.acks, a.errors = 0 → ∀ k < a.commit, s.EntryDurable k := by
  have hinv : AckInv cfg s :=
    hrun.invariant (ackInv_start hstart)
      fun _ _ _ h hok hs => h.step hok (step_steps hs)
  exact fun a ha => (hinv.acked a ha).2

def metaLog : WalConfig := ⟨true, true, 0, true⟩

/-- An object is written and its item processed, then a commit is taken up. -/
def putAndCommit (walFull : Bool) : List Event :=
  [.writeExt 0 [1] true, .markDirty 0, .pwrite 0,
    .enqueue (.items [⟨.add, [0]⟩]), .process true [] [] true,
    .enqueue (.commit .plain), .takeCommit, .beginCommit walFull]

theorem entryDurable_of_run_walCommit :
    ∃ s₀ s : Store, start metaLog newDisk = some s₀ ∧
      exec (guarded (step metaLog) (AckSafe metaLog)) s₀
        (putAndCommit false ++ List.replicate 5 (.commitStep true)) = some s ∧
      ⟨1, 0⟩ ∈ s.acks ∧ s.EntryDurable 0 := by
  obtain ⟨s₀, hstart, s, hexec, hmem⟩ : ∃ s₀ ∈ start metaLog newDisk,
      ∃ s ∈ exec (guarded (step metaLog) (AckSafe metaLog)) s₀
        (putAndCommit false ++ List.replicate 5 (.commitStep true)),
      (⟨1, 0⟩ : Ack) ∈ s.acks := by decide
  exact ⟨s₀, s, hstart, hexec, hmem, entryDurable_of_run hstart
    (run_of_exec_guarded hexec) _ hmem rfl 0 Nat.zero_lt_one⟩

/-- When the log is full the commit goes to the index.  The data file is not
synced then, and the flag that asks for it is not looked at. -/
theorem not_entryDurable_full_log :
    ∃ s₀ s : Store, start metaLog newDisk = some s₀ ∧
      exec (step metaLog) s₀
        (putAndCommit true ++ List.replicate 4 (.commitStep true)) = some s ∧
      ⟨1, 0⟩ ∈ s.acks ∧ ¬ s.EntryDurable 0 := by
  refine ⟨_, _, rfl, rfl, by decide, ?_⟩
  intro h
  obtain ⟨call, hcall, hdurable⟩ := h.data _ rfl 0 (by decide)
  cases hcall
  rcases hdurable trivial with ⟨x, hx, -⟩ | ⟨alt, r, hr, hp⟩
  · have hx : x ∈ ([] : List DataWrite) := hx
    cases hx
  · revert hp
    revert r
    revert alt
    decide

end Store

end Hs5

import NetService.ConnectMgr.Model

/-!
# The map holds exactly the live connections

`Registered` says that every live connection is in the map under its own id, and nothing else is.
Then the ids of the live connections are distinct, and `OnStop` deletes each of them once
(`Registered.onStop`).  `NewConnect` keeps it if the id it gives out is `Fresh`; the counter wraps
around after `2 ^ 32` connections, so that it need not be.  `sound_iff` says that this is all that
can go wrong, and `counter_wraps` is a run in which it does.
-/

namespace NetService
namespace ConnectMgr

variable {svc : Service} {s t : ConnectMgr}

/-! ### What is asked of a manager -/

/-- The connections that `OnStop` deletes, with the entries in the order `order`. -/
def stopDeletes (s : ConnectMgr) (order : List UInt32) : List ℕ :=
  order.filterMap fun connId => (s.connectMgr.lookup connId).join

/-- The ids of the live connections are distinct, the map holds them and nothing else, and `OnStop`
deletes each of them once, in whatever order the map has its entries. -/
structure Sound (s : ConnectMgr) : Prop where
  distinct : ∀ p q, s.Live p → s.Live q → s.getConnonId p = s.getConnonId q → p = q
  exact : ∀ connId v, s.connectMgr.lookup connId = some v ↔
    ∃ p, v = some p ∧ s.Live p ∧ s.getConnonId p = connId
  stop : ∀ order : List UInt32, order.Perm s.connectMgr.keys →
    (s.onStop order).connectMgr = ∅ ∧ ∃ conns, (s.onStop order).deleted = s.deleted ++ conns ∧
      conns.Nodup ∧ ∀ p, p ∈ conns ↔ s.Live p

/-- The next id is not that of a live connection. -/
def Fresh (s : ConnectMgr) : Prop := ∀ p, s.Live p → s.getConnonId p ≠ s.uniqueId

/-- A step that does not give out the id of a live connection. -/
def Ok (s : ConnectMgr) (e : Event) : Prop := e = .newConnect → s.Fresh

/-! ### `OnStop` -/

/-- Every live connection is in the map under its own id, and nothing else is. -/
structure Registered (s : ConnectMgr) : Prop where
  exact : ∀ connId v, s.connectMgr.lookup connId = some v ↔
    ∃ p, v = some p ∧ s.Live p ∧ s.getConnonId p = connId
  created : ∀ p ∈ s.deleted, p < s.connonIds.length

theorem Registered.distinct (h : Registered s) {p q : ℕ} (hp : s.Live p) (hq : s.Live q)
    (heq : s.getConnonId p = s.getConnonId q) : p = q := by
  have hlp := (h.exact _ _).2 ⟨p, rfl, hp, rfl⟩
  have hlq := (h.exact _ _).2 ⟨q, rfl, hq, rfl⟩
  rw [heq, hlq] at hlp
  exact (Option.some.inj (Option.some.inj hlp)).symm

theorem deleteEntry_deleted (s : ConnectMgr) (connId : UInt32) :
    (s.deleteEntry connId).deleted =
      s.deleted ++ ((s.connectMgr.lookup connId).join).toList := by
  unfold deleteEntry
  cases hlookup : s.connectMgr.lookup connId with
  | none => exact (List.append_nil _).symm
  | some v =>
    cases v with
    | none => exact (List.append_nil _).symm
    | some conn => rfl

/-- The other entries are as they were. -/
theorem deleteEntry_lookup (s : ConnectMgr) {connId connId' : UInt32} (hne : connId' ≠ connId) :
    (s.deleteEntry connId).connectMgr.lookup connId' = s.connectMgr.lookup connId' := by
  unfold deleteEntry
  split
  · exact AList.lookup_insert_ne hne
  · rfl

/-- The loop of `OnStop`. -/
theorem deleteEntries_deleted (s : ConnectMgr) {order : List UInt32} (hnd : order.Nodup) :
    (order.foldl deleteEntry s).deleted = s.deleted ++ s.stopDeletes order := by
  induction order generalizing s with
  | nil => exact (List.append_nil _).symm
  | cons connId order ih =>
    obtain ⟨hnot, hnd'⟩ := List.nodup_cons.1 hnd
    have hrest : (s.deleteEntry connId).stopDeletes order = s.stopDeletes order := by
      refine List.filterMap_congr fun connId' hmem => ?_
      have hne : connId' ≠ connId := fun heq => hnot (by rwa [heq] at hmem)
      rw [deleteEntry_lookup s hne]
    rw [List.foldl_cons, ih _ hnd', hrest, deleteEntry_deleted, List.append_assoc]
    congr 1
    unfold stopDeletes
    rw [List.filterMap_cons]
    cases (s.connectMgr.lookup connId).join <;> rfl

/-- `OnStop` deletes every live connection once. -/
theorem Registered.onStop (h : Registered s) {order : List UInt32}
    (horder : order.Perm s.connectMgr.keys) :
    (s.onStop order).connectMgr = ∅ ∧ ∃ conns, (s.onStop order).deleted = s.deleted ++ conns ∧
      conns.Nodup ∧ ∀ p, p ∈ conns ↔ s.Live p := by
  have hnd : order.Nodup := horder.nodup_iff.2 s.connectMgr.keys_nodup
  have hjoin : ∀ connId p, (s.connectMgr.lookup connId).join = some p ↔
      s.Live p ∧ s.getConnonId p = connId := by
    intro connId p
    rw [Option.join_eq_some_iff, h.exact]
    constructor
    · rintro ⟨q, hq, hlive, hid⟩
      cases hq
      exact ⟨hlive, hid⟩
    · rintro ⟨hlive, hid⟩
      exact ⟨p, rfl, hlive, hid⟩
  refine ⟨rfl, s.stopDeletes order, deleteEntries_deleted s hnd, ?_, fun p => ?_⟩
  · refine hnd.filterMap fun connId connId' p hp hp' => ?_
    rw [← ((hjoin connId p).1 hp).2, ((hjoin connId' p).1 hp').2]
  · unfold stopDeletes
    rw [List.mem_filterMap]
    constructor
    · rintro ⟨connId, -, hp⟩
      exact ((hjoin connId p).1 hp).1
    · intro hlive
      refine ⟨s.getConnonId p, ?_, (hjoin _ p).2 ⟨hlive, rfl⟩⟩
      have hlookup := (h.exact _ _).2 ⟨p, rfl, hlive, rfl⟩
      exact horder.mem_iff.2 (AList.mem_keys.1 (AList.lookup_isSome.1 (by rw [hlookup]; rfl)))

theorem Registered.sound (h : Registered s) : Sound s where
  distinct _ _ hp hq heq := h.distinct hp hq heq
  exact := h.exact
  stop _ horder := h.onStop horder

/-! ### What the steps do -/

theorem new_registered (uniqueId : UInt32) : Registered (new uniqueId) where
  exact connId v := by
    constructor
    · intro hlookup
      cases hlookup
    · rintro ⟨p, -, hlive, -⟩
      exact absurd hlive.1 (Nat.not_lt_zero p)
  created := fun _ hp => absurd hp List.not_mem_nil

/-- The ids of the connections before, and that of the new one. -/
theorem newConnect_getConnonId (s : ConnectMgr) {p : ℕ} (hp : p < s.connonIds.length) :
    s.newConnect.getConnonId p = s.getConnonId p := by
  show (s.connonIds ++ [s.uniqueId]).getD p 0 = s.connonIds.getD p 0
  simp only [List.getD_eq_getElem?_getD]
  rw [List.getElem?_append_left hp]

theorem newConnect_getConnonId_new (s : ConnectMgr) :
    s.newConnect.getConnonId s.connonIds.length = s.uniqueId := by
  show (s.connonIds ++ [s.uniqueId]).getD s.connonIds.length 0 = s.uniqueId
  rw [List.getD_eq_getElem?_getD, List.getElem?_concat_length, Option.getD_some]

theorem newConnect_live_iff (hcreated : ∀ p ∈ s.deleted, p < s.connonIds.length) {p : ℕ} :
    s.newConnect.Live p ↔ s.Live p ∨ p = s.connonIds.length := by
  have hlen : s.newConnect.connonIds.length = s.connonIds.length + 1 := List.length_append
  have hdeleted : s.newConnect.deleted = s.deleted := rfl
  unfold Live
  rw [hlen, hdeleted]
  constructor
  · rintro ⟨hlt, hnot⟩
    by_cases hp : p = s.connonIds.length
    · exact .inr hp
    · exact .inl ⟨by omega, hnot⟩
  · rintro (⟨hlt, hnot⟩ | rfl)
    · exact ⟨by omega, hnot⟩
    · exact ⟨by omega, fun hmem => absurd (hcreated _ hmem) (lt_irrefl _)⟩

/-- A fresh id has no entry. -/
theorem Registered.lookup_fresh (h : Registered s) (hfresh : s.Fresh) :
    s.connectMgr.lookup s.uniqueId = none := by
  cases hlookup : s.connectMgr.lookup s.uniqueId with
  | none => rfl
  | some v =>
    obtain ⟨p, -, hlive, hid⟩ := (h.exact _ _).1 hlookup
    exact absurd hid (hfresh p hlive)

theorem Registered.newConnect (h : Registered s) (hfresh : s.Fresh) : Registered s.newConnect := by
  have hlive := fun p => newConnect_live_iff h.created (p := p)
  have hmap : s.newConnect.connectMgr = s.connectMgr.insert s.uniqueId (some s.connonIds.length) :=
    if_neg (AList.lookup_eq_none.1 (h.lookup_fresh hfresh))
  refine ⟨fun connId v => ?_, fun p hp => ?_⟩
  · rw [hmap]
    by_cases hid : connId = s.uniqueId
    · rw [hid, AList.lookup_insert, Option.some.injEq]
      constructor
      · rintro rfl
        exact ⟨_, rfl, (hlive _).2 (.inr rfl), newConnect_getConnonId_new s⟩
      · rintro ⟨p, rfl, hp, heq⟩
        rcases (hlive p).1 hp with hp | rfl
        · rw [newConnect_getConnonId s hp.1] at heq
          exact absurd heq (hfresh p hp)
        · rfl
    · rw [AList.lookup_insert_ne hid, h.exact]
      constructor
      · rintro ⟨p, rfl, hp, heq⟩
        exact ⟨p, rfl, (hlive p).2 (.inl hp), (newConnect_getConnonId s hp.1).trans heq⟩
      · rintro ⟨p, rfl, hp, heq⟩
        rcases (hlive p).1 hp with hp | rfl
        · exact ⟨p, rfl, hp, (newConnect_getConnonId s hp.1).symm.trans heq⟩
        · rw [newConnect_getConnonId_new] at heq
          exact absurd heq.symm hid
  · have hlen : s.newConnect.connonIds.length = s.connonIds.length + 1 := List.length_append
    have := h.created p hp
    omega

theorem clientReadCb_live_iff {conn p : ℕ} :
    (s.clientReadCb conn).Live p ↔ s.Live p ∧ p ≠ conn := by
  show p < s.connonIds.length ∧ p ∉ s.deleted ++ [conn] ↔ _
  rw [List.mem_append, List.mem_singleton, not_or, ← and_assoc]
  exact Iff.rfl

theorem Registered.clientReadCb (h : Registered s) {conn : ℕ} (hconn : s.Live conn) :
    Registered (s.clientReadCb conn) := by
  have hids : ∀ p, (s.clientReadCb conn).getConnonId p = s.getConnonId p := fun _ => rfl
  have hmap : (s.clientReadCb conn).connectMgr = s.connectMgr.erase (s.getConnonId conn) := rfl
  refine ⟨fun connId v => ?_, fun p hp => ?_⟩
  · simp only [clientReadCb_live_iff, hids, hmap]
    by_cases hid : connId = s.getConnonId conn
    · rw [hid, AList.lookup_erase]
      constructor
      · rintro ⟨⟩
      · rintro ⟨p, -, ⟨hp, hne⟩, heq⟩
        exact absurd (h.distinct hp hconn heq) hne
    · rw [AList.lookup_erase_ne hid, h.exact]
      constructor
      · rintro ⟨p, rfl, hp, heq⟩
        exact ⟨p, rfl, ⟨hp, fun hpc => hid (heq.symm.trans (by rw [hpc]))⟩, heq⟩
      · rintro ⟨p, rfl, ⟨hp, -⟩, heq⟩
        exact ⟨p, rfl, hp, heq⟩
  · rcases List.mem_append.1 hp with hp | hp
    · exact h.created p hp
    · rw [List.mem_singleton.1 hp]
      exact hconn.1

/-- One step. -/
theorem Registered.step {uniqueId : UInt32} {e : Event} (h : Registered s)
    (hstep : ((system svc uniqueId).restrict Ok).step s e t) : Registered t := by
  obtain ⟨hok, hstep⟩ := hstep
  cases e with
  | newConnect =>
    obtain rfl : t = s.newConnect := hstep
    exact h.newConnect (hok rfl)
  | readFailed conn =>
    obtain ⟨hlive, rfl⟩ : s.Live conn ∧ t = readFailed svc s conn := hstep
    rw [readFailed_eq]
    exact h.clientReadCb hlive

/-- Only connections that have been created are deleted. -/
theorem created_of_run {uniqueId : UInt32} {events : List Event}
    (h : (system svc uniqueId).Run (new uniqueId) events s) :
    ∀ p ∈ s.deleted, p < s.connonIds.length := by
  refine h.invariant (I := fun s => ∀ p ∈ s.deleted, p < s.connonIds.length) ?_
    fun _ hp => absurd hp List.not_mem_nil
  intro s e t hs hstep p hp
  cases e with
  | newConnect =>
    obtain rfl : t = s.newConnect := hstep
    have hlen : s.newConnect.connonIds.length = s.connonIds.length + 1 := List.length_append
    have := hs p hp
    omega
  | readFailed conn =>
    obtain ⟨hlive, rfl⟩ : s.Live conn ∧ t = readFailed svc s conn := hstep
    rw [readFailed_eq] at hp ⊢
    rcases List.mem_append.1 hp with hp | hp
    · exact hs p hp
    · rw [List.mem_singleton.1 hp]
      exact hlive.1

/-! ### The result -/

theorem step_deterministic {uniqueId : UInt32} (s : ConnectMgr) (e : Event) (t t' : ConnectMgr)
    (h : (system svc uniqueId).step s e t) (h' : (system svc uniqueId).step s e t') : t = t' := by
  cases e with
  | newConnect => exact (show t = _ from h).trans (show t' = _ from h').symm
  | readFailed conn =>
    exact (show _ ∧ t = _ from h).2.trans (show _ ∧ t' = _ from h').2.symm

/-- In every run of either manager, from any value of the counter: the manager is sound in every
state that is met exactly if every `NewConnect` gives out an id that no live connection has. -/
theorem sound_iff (svc : Service) (uniqueId : UInt32) (events : List Event) (s : ConnectMgr)
    (hrun : (system svc uniqueId).Run (new uniqueId) events s) :
    (∀ pre post t, events = pre ++ post → (system svc uniqueId).Run (new uniqueId) pre t →
        Sound t) ↔
      ((system svc uniqueId).restrict Ok).Run (new uniqueId) events s := by
  constructor
  · intro hsound
    refine hrun.restrict fun pre e post t heq hpre => ?_
    rintro rfl p hlive hid
    have hnew : (system svc uniqueId).Run (new uniqueId) (pre ++ [.newConnect]) t.newConnect :=
      hpre.append (.cons rfl (.nil _))
    have hnext := hsound _ post _ (by rw [heq, List.append_assoc]; rfl) hnew
    have hcreated := created_of_run hpre
    -- the new connection has the id of `p`
    have hsame := hnext.distinct p t.connonIds.length
      ((newConnect_live_iff hcreated).2 (.inl hlive)) ((newConnect_live_iff hcreated).2 (.inr rfl))
      (by rw [newConnect_getConnonId _ hlive.1, newConnect_getConnonId_new, hid])
    exact absurd hlive.1 (by omega)
  · intro hok pre post t heq hpre
    subst heq
    obtain ⟨t', hpre', -⟩ := hok.split
    obtain rfl := hpre.deterministic step_deterministic hpre'.of_restrict
    have hreg : Registered t := hpre'.invariant (fun _ _ _ hs hst => hs.step hst)
      (new_registered uniqueId)
    exact hreg.sound

/-- A connection that is opened with the last id, and closed. -/
theorem sound_iff_closed :
    Sound (readFailed .ws (new 0xFFFFFFFF).newConnect 0) := by
  have hlive : (new 0xFFFFFFFF).newConnect.Live 0 := ⟨by decide, List.not_mem_nil⟩
  have hrun : (system .ws 0xFFFFFFFF).Run (new 0xFFFFFFFF) [.newConnect, .readFailed 0]
      (readFailed .ws (new 0xFFFFFFFF).newConnect 0) :=
    .cons rfl (.cons ⟨hlive, rfl⟩ (.nil _))
  have hfresh : (new 0xFFFFFFFF).Fresh := fun p hp => absurd hp.1 (Nat.not_lt_zero p)
  have hok : ((system .ws 0xFFFFFFFF).restrict Ok).Run (new 0xFFFFFFFF) [.newConnect, .readFailed 0]
      (readFailed .ws (new 0xFFFFFFFF).newConnect 0) :=
    .cons ⟨fun _ => hfresh, rfl⟩ (.cons ⟨nofun, hlive, rfl⟩ (.nil _))
  exact (sound_iff .ws 0xFFFFFFFF [.newConnect, .readFailed 0] _ hrun).2 hok _ [] _
    (List.append_nil _).symm hrun

/-! ### The counter wraps around -/

/-- A connection that stays, and `n` that are opened and closed after it. -/
def churn (n : ℕ) : List Event :=
  .newConnect :: (List.range n).flatMap fun i => [.newConnect, .readFailed (i + 1)]

/-- The manager after `churn n`. -/
def churned (n : ℕ) : ConnectMgr where
  connectMgr := (∅ : ConnectMap).insert 0 (some 0)
  uniqueId := UInt32.ofNat (n + 1)
  connonIds := (List.range (n + 1)).map UInt32.ofNat
  deleted := (List.range n).map (· + 1)

theorem churned_created (n : ℕ) : (churned n).connonIds.length = n + 1 := by
  unfold churned
  rw [List.length_map, List.length_range]

theorem churned_newConnect (n : ℕ) :
    (churned n).newConnect.connonIds = (churned (n + 1)).connonIds ∧
      (churned n).newConnect.uniqueId = (churned (n + 1)).uniqueId := by
  constructor
  · show (List.range (n + 1)).map UInt32.ofNat ++ [UInt32.ofNat (n + 1)] =
      (List.range (n + 1 + 1)).map UInt32.ofNat
    rw [List.range_succ (n := n + 1), List.map_append]
    rfl
  · show UInt32.ofNat (n + 1) + 1 = UInt32.ofNat (n + 1 + 1)
    exact (UInt32.ofNat_add (n + 1) 1).symm

/-- A connection that is opened and closed again leaves no entry. -/
theorem churned_closed {n : ℕ} (hn : n + 1 < 2 ^ 32) :
    (churned n).newConnect.clientReadCb (n + 1) = churned (n + 1) := by
  obtain ⟨hids, hunique⟩ := churned_newConnect n
  have hid : (churned n).newConnect.getConnonId (n + 1) = UInt32.ofNat (n + 1) := by
    have hnew := newConnect_getConnonId_new (churned n)
    rwa [churned_created] at hnew
  have hne : UInt32.ofNat (n + 1) ≠ 0 := fun h => by
    have hnat := congrArg UInt32.toNat h
    rw [UInt32.toNat_ofNat', Nat.mod_eq_of_lt (by omega)] at hnat
    exact absurd hnat (Nat.succ_ne_zero n)
  have hnot : UInt32.ofNat (n + 1) ∉ (churned n).connectMgr := by
    unfold churned
    rw [AList.mem_insert]
    exact fun h => h.elim hne (AList.notMem_empty _)
  have hmap : (churned n).newConnect.connectMgr =
      (churned n).connectMgr.insert (UInt32.ofNat (n + 1)) (some (churned n).connonIds.length) :=
    if_neg hnot
  have herase : (churned n).newConnect.connectMgr.erase (UInt32.ofNat (n + 1)) =
      (churned n).connectMgr := by
    apply AList.ext
    rw [hmap]
    show ((churned n).connectMgr.insert _ _).entries.kerase _ = _
    rw [AList.entries_insert_of_notMem hnot]
    exact List.kerase_cons_eq rfl
  have hdeleted : (churned n).newConnect.deleted ++ [n + 1] = (churned (n + 1)).deleted := by
    show (List.range n).map (· + 1) ++ [n + 1] = (List.range (n + 1)).map (· + 1)
    rw [List.range_succ, List.map_append]
    rfl
  unfold clientReadCb deleteConnect delete
  rw [hid, herase, hdeleted, hids, hunique]
  rfl

theorem churned_deleted (n p : ℕ) : p ∈ (churned n).deleted ↔ ∃ i < n, i + 1 = p := by
  unfold churned
  rw [List.mem_map]
  simp only [List.mem_range]

theorem churn_run (svc : Service) {n : ℕ} (hn : n < 2 ^ 32) :
    (system svc 0).Run (new 0) (churn n) (churned n) := by
  induction n with
  | zero => exact .cons rfl (.nil _)
  | succ n ih =>
    have hsplit : churn (n + 1) = churn n ++ [.newConnect, .readFailed (n + 1)] := by
      unfold churn
      rw [List.range_succ, List.flatMap_append]
      rfl
    have hlive : (churned n).newConnect.Live (n + 1) := by
      refine ⟨?_, fun hmem => ?_⟩
      · rw [(churned_newConnect n).1, churned_created]
        omega
      · obtain ⟨i, hi, heq⟩ := (churned_deleted n (n + 1)).1 hmem
        omega
    have hclosed : churned (n + 1) = readFailed svc (churned n).newConnect (n + 1) := by
      rw [readFailed_eq, churned_closed hn]
    rw [hsplit]
    exact (ih (by omega)).append (.cons rfl (.cons ⟨hlive, hclosed⟩ (.nil _)))

/-- One connection that stays, `2 ^ 32 - 1` that are opened and closed, and one more: it has the id
of the first one and no entry.  When it is closed the entry of the first one is erased, which
`OnStop` then does not delete. -/
theorem counter_wraps :
    ∃ events s, (system .tcp 0).Run (new 0) events s ∧ ¬ Sound s ∧
      ∃ t, (system .tcp 0).step s (.readFailed (2 ^ 32)) t ∧ t.Live 0 ∧
        (t.onStop t.connectMgr.keys).deleted = t.deleted := by
  -- the first connection stays, all others but the last are opened and closed again
  obtain ⟨n, hn⟩ : ∃ n, n + 1 = 2 ^ 32 := ⟨2 ^ 32 - 1, rfl⟩
  obtain ⟨s, hs⟩ : ∃ s, s = (churned n).newConnect := ⟨_, rfl⟩
  have hrun := (churn_run .tcp (by omega : n < 2 ^ 32)).append (.cons hs (.nil _) :
    (system .tcp 0).Run (churned n) [.newConnect] s)
  have hunique : (churned n).uniqueId = 0 := by
    show UInt32.ofNat (n + 1) = 0
    rw [hn]
    rfl
  have hcreated := churned_created n
  have hmem := churned_deleted n
  have hlive : s.Live 0 ∧ s.Live (2 ^ 32) := by
    rw [hs, ← hn]
    have hlen : (churned n).newConnect.connonIds.length = n + 1 + 1 := by
      rw [(churned_newConnect n).1, churned_created]
    refine ⟨⟨by omega, fun h => ?_⟩, ⟨by omega, fun h => ?_⟩⟩
    · obtain ⟨i, -, heq⟩ := (hmem 0).1 h
      omega
    · obtain ⟨i, hi, heq⟩ := (hmem (n + 1)).1 h
      omega
  have hfirst : s.getConnonId 0 = 0 := by
    rw [hs, newConnect_getConnonId _ (by omega)]
    show ((List.range (n + 1)).map UInt32.ofNat).getD 0 0 = 0
    rw [List.range_succ_eq_map]
    rfl
  have hlast : s.getConnonId (2 ^ 32) = 0 := by
    have hnew := newConnect_getConnonId_new (churned n)
    rwa [hcreated, hn, ← hs, hunique] at hnew
  -- the entry of the first connection is there, so that the insertion does nothing
  have hmap : s.connectMgr = (churned n).connectMgr := by
    rw [hs]
    show (churned n).connectMgr.insertNew (churned n).uniqueId _ = _
    rw [hunique]
    exact if_pos ((AList.mem_insert _).2 (.inl rfl))
  refine ⟨_, s, hrun, fun hsound => ?_, _, ⟨hlive.2, rfl⟩, ?_, ?_⟩
  · have hsame := hsound.distinct 0 (2 ^ 32) hlive.1 hlive.2 (hfirst.trans hlast.symm)
    exact absurd hsame (by decide)
  · exact clientReadCb_live_iff.2 ⟨hlive.1, by decide⟩
  · have herase : (readFailed .tcp s (2 ^ 32)).connectMgr = ∅ := by
      show s.connectMgr.erase (s.getConnonId (2 ^ 32)) = ∅
      rw [hlast, hmap]
      rfl
    rw [herase]
    rfl

end ConnectMgr
end NetService

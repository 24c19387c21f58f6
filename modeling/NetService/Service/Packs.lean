import NetService.Lib.LTS

/-!
# The packs of `WsService`

`AddPack` and `Swap` lock the mutex, so each is one step.  `OnStop` does not: it deletes the packs of
`packlist` one after another and clears the list, with steps of the other threads in between.  Packs
are numbered in the order in which they are added, and `deleted` is the history of `delete`.

`std::list::swap` moves the elements without invalidating iterators.  After a `Swap` during its walk
`OnStop` goes on over the elements that are now in the other list, and does not find the end of
`packlist` behind them; what it does there is undefined and not followed.

`owned_of_ok` says that every pack has one owner, and ends up with it, if no `Swap` finds packs while
`OnStop` is in its walk and no `AddPack` comes between the end of the walk and the clear, and that a
step of either kind leads to a state where this is not so; `swapped_after_delete` is such a run.
-/

namespace NetService

/-- Where `OnStop` is in its walk over `packlist`. -/
inductive StopAt
  | before
  /-- the packs from the iterator on, and whether they are still in `packlist` -/
  | walking (rest : List ℕ) (inList : Bool)
  | cleared
deriving DecidableEq

/-- The packs added so far, the list, the lists that the calls of `Swap` have returned, and the packs
that have been deleted. -/
structure WsPacks where
  added : ℕ
  packlist : List ℕ
  lists : List (List ℕ)
  deleted : List ℕ
  stop : StopAt

namespace WsPacks

def new : WsPacks where
  added := 0
  packlist := []
  lists := []
  deleted := []
  stop := .before

/-- `AddPack`.  The walk of `OnStop` comes to the new element, unless it is at the end already. -/
def addPack (s : WsPacks) : WsPacks where
  added := s.added + 1
  packlist := s.packlist ++ [s.added]
  lists := s.lists
  deleted := s.deleted
  stop :=
    match s.stop with
    | .walking (p :: rest) true => .walking (p :: rest ++ [s.added]) true
    | stop => stop

/-- `Swap(list)`, and what `list` holds after it. -/
def swap (s : WsPacks) (list : List ℕ) : WsPacks × List ℕ :=
  ({ s with
    packlist := list
    lists := s.lists ++ [s.packlist]
    stop :=
      match s.stop with
      | .walking (p :: rest) _ => .walking (p :: rest) false
      | stop => stop },
    s.packlist)

/-- `OnStop` behind `join`: the walk begins. -/
def stopBegin (s : WsPacks) : Option WsPacks :=
  match s.stop with
  | .before => some { s with stop := .walking s.packlist true }
  | _ => none

/-- The walk deletes a pack and goes on to the next one. -/
def stopDelete (s : WsPacks) : Option WsPacks :=
  match s.stop with
  | .walking (p :: rest) inList =>
      some { s with deleted := s.deleted ++ [p], stop := .walking rest inList }
  | _ => none

/-- `packlist.clear()`, when the walk has come to the end of `packlist`. -/
def stopClear (s : WsPacks) : Option WsPacks :=
  match s.stop with
  | .walking [] true => some { s with packlist := [], stop := .cleared }
  | _ => none

/-! ### Runs -/

inductive Event
  | addPack
  /-- a round of `MainThread`, with an empty list -/
  | swap
  | stopBegin
  | stopDelete
  | stopClear
deriving DecidableEq

/-- One step of one of the threads. -/
def step (s : WsPacks) : Event → Option WsPacks
  | .addPack => some s.addPack
  | .swap => some (s.swap []).1
  | .stopBegin => s.stopBegin
  | .stopDelete => s.stopDelete
  | .stopClear => s.stopClear

/-- Any interleaving of the threads. -/
def system : LTS WsPacks Event where
  init s := s = new
  step s e t := s.step e = some t

/-! ### What is asked of it -/

/-- The packs that the calls of `Swap` have returned. -/
def returned (s : WsPacks) : List ℕ := s.lists.flatten

/-- No pack is returned twice, deleted twice or both; packs are returned and deleted in the order in
which they were added; and none is lost. -/
structure Owned (s : WsPacks) : Prop where
  once : (s.returned ++ s.deleted).Nodup
  returned_order : s.returned.Pairwise (· < ·)
  deleted_order : s.deleted.Pairwise (· < ·)
  kept : ∀ p < s.added, p ∈ s.returned ∨ p ∈ s.deleted ∨ p ∈ s.packlist

/-- All the packs added so far have been returned or deleted. -/
def Settled (s : WsPacks) (n : ℕ) : Prop := ∀ p < n, p ∈ s.returned ∨ p ∈ s.deleted

/-- No `Swap` finds a pack in the list while `OnStop` is in its walk, and no `AddPack` comes between the
end of the walk and the clear. -/
def Ok (s : WsPacks) : Event → Prop
  | .addPack => ∀ inList, s.stop ≠ .walking [] inList
  | .swap => ∀ rest inList, s.stop = .walking rest inList → s.packlist = []
  | _ => True

/-- The packs added so far end up returned or deleted: any `Swap` and the clear of `OnStop` see to it,
and one of the two can be reached without another `AddPack`. -/
structure Settles (s : WsPacks) : Prop where
  settled : ∀ more t, (system.restrict Ok).Run s more t → .swap ∈ more ∨ .stopClear ∈ more →
    t.Settled s.added
  reached : ∃ more t, (system.restrict Ok).Run s more t ∧ (.swap ∈ more ∨ .stopClear ∈ more) ∧
    .addPack ∉ more

/-! ### The invariant -/

/-- All packs in the order added: those returned before `OnStop` has cleared the list, those it has
deleted, those returned later, and those that wait. -/
inductive InOrder (s : WsPacks) : Prop
  | before (stop : s.stop = .before) (all : s.returned ++ s.packlist = List.range s.added)
      (none : s.deleted = [])
  | walking {rest : List ℕ} (stop : s.stop = .walking rest true)
      (all : s.returned ++ s.packlist = List.range s.added) (list : s.packlist = s.deleted ++ rest)
  | cleared {early later : List ℕ} (stop : s.stop = .cleared)
      (split : s.returned = early ++ later)
      (all : early ++ s.deleted ++ later ++ s.packlist = List.range s.added)

/-- Pieces of the packs in order. -/
theorem owned_of_split {s : WsPacks} {early later rest : List ℕ}
    (hsplit : s.returned = early ++ later)
    (hall : early ++ s.deleted ++ later ++ rest = List.range s.added)
    (hrest : ∀ p ∈ rest, p ∈ s.packlist) : Owned s := by
  have hsorted : (early ++ s.deleted ++ later ++ rest).Pairwise (· < ·) := by
    rw [hall]
    exact List.pairwise_lt_range
  have hreturned : s.returned.Sublist (early ++ s.deleted ++ later ++ rest) := by
    rw [hsplit, List.append_assoc, List.append_assoc]
    exact (List.Sublist.refl early).append
      ((List.sublist_append_left later rest).trans (List.sublist_append_right _ _))
  have hdeleted : s.deleted.Sublist (early ++ s.deleted ++ later ++ rest) := by
    rw [List.append_assoc, List.append_assoc]
    exact (List.sublist_append_left _ _).trans (List.sublist_append_right _ _)
  refine ⟨?_, hsorted.sublist hreturned, hsorted.sublist hdeleted, fun p hp => ?_⟩
  · have hnodup : (early ++ s.deleted ++ later).Nodup :=
      (hall ▸ List.nodup_range : (early ++ s.deleted ++ later ++ rest).Nodup).sublist
        (List.sublist_append_left _ _)
    have hperm : (s.returned ++ s.deleted).Perm (early ++ s.deleted ++ later) := by
      rw [hsplit, List.append_assoc, List.append_assoc]
      exact List.perm_append_comm.append_left early
    exact hperm.nodup_iff.2 hnodup
  · have hmem : p ∈ early ++ s.deleted ++ later ++ rest := by
      rw [hall]
      exact List.mem_range.2 hp
    rw [hsplit]
    simp only [List.mem_append] at hmem ⊢
    rcases hmem with ((hp | hp) | hp) | hp
    · exact .inl (.inl hp)
    · exact .inr (.inl hp)
    · exact .inl (.inr hp)
    · exact .inr (.inr (hrest p hp))

theorem InOrder.owned {s : WsPacks} (h : InOrder s) : Owned s := by
  cases h with
  | before _ all none =>
    refine owned_of_split (List.append_nil _).symm ?_ fun _ hp => hp
    rw [none, List.append_nil, List.append_nil]
    exact all
  | @walking rest _ all list =>
    refine @owned_of_split s _ _ rest (List.append_nil _).symm ?_ fun p hp => ?_
    · rw [← all, list, List.append_nil, List.append_assoc]
    · rw [list]
      exact List.mem_append_right _ hp
  | cleared _ split all => exact owned_of_split split all fun _ hp => hp

/-! ### The steps -/

variable {s t : WsPacks}

theorem addPack_all {l : List ℕ} (h : l ++ s.packlist = List.range s.added) :
    l ++ s.addPack.packlist = List.range s.addPack.added := by
  show l ++ (s.packlist ++ [s.added]) = List.range (s.added + 1)
  rw [← List.append_assoc, h, List.range_succ]

theorem InOrder.addPack (h : InOrder s) (hok : Ok s .addPack) : InOrder s.addPack := by
  cases h with
  | before stop all none =>
    refine .before ?_ (addPack_all all) none
    unfold WsPacks.addPack
    rw [stop]
  | @walking rest stop all list =>
    cases rest with
    | nil => exact absurd stop (hok true)
    | cons p rest =>
      refine @InOrder.walking _ (p :: rest ++ [s.added]) ?_ (addPack_all all) ?_
      · unfold WsPacks.addPack
        rw [stop]
      · show s.packlist ++ [s.added] = s.deleted ++ (p :: rest ++ [s.added])
        rw [list, List.append_assoc]
  | @cleared early later stop split all =>
    refine .cleared ?_ split (addPack_all all)
    unfold WsPacks.addPack
    rw [stop]

theorem swap_returned : (s.swap []).1.returned = s.returned ++ s.packlist := by
  show (s.lists ++ [s.packlist]).flatten = _
  rw [List.flatten_append, List.flatten_cons, List.flatten_nil, List.append_nil]
  rfl

theorem InOrder.swap (h : InOrder s) (hok : Ok s .swap) : InOrder (s.swap []).1 := by
  have hnil : (s.swap []).1.packlist = [] := rfl
  cases h with
  | before stop all none =>
    refine .before ?_ ?_ none
    · unfold WsPacks.swap
      rw [stop]
    · rw [swap_returned, hnil, List.append_nil]
      exact all
  | @walking rest stop all list =>
    -- the list is empty, so the walk has deleted nothing and is at its end
    have hempty : s.packlist = [] := hok rest true stop
    obtain ⟨hdeleted, rfl⟩ := List.append_eq_nil_iff.1 (list.symm.trans hempty)
    refine @InOrder.walking _ [] ?_ ?_ ?_
    · unfold WsPacks.swap
      rw [stop]
    · rw [swap_returned, hnil, List.append_nil]
      exact all
    · show [] = s.deleted ++ []
      rw [hdeleted]
      rfl
  | @cleared early later stop split all =>
    refine @InOrder.cleared _ early (later ++ s.packlist) ?_ ?_ ?_
    · unfold WsPacks.swap
      rw [stop]
    · rw [swap_returned, split, List.append_assoc]
    · rw [hnil, List.append_nil, ← List.append_assoc]
      exact all

/-- What the steps of `OnStop` do. -/
theorem stopBegin_spec (h : s.stopBegin = some t) :
    s.stop = .before ∧ t = { s with stop := .walking s.packlist true } := by
  unfold WsPacks.stopBegin at h
  split at h
  · next stop => exact ⟨stop, (Option.some.inj h).symm⟩
  · cases h

theorem stopDelete_spec (h : s.stopDelete = some t) :
    ∃ p rest inList, s.stop = .walking (p :: rest) inList ∧
      t = { s with deleted := s.deleted ++ [p], stop := .walking rest inList } := by
  unfold WsPacks.stopDelete at h
  split at h
  · next p rest inList stop => exact ⟨p, rest, inList, stop, (Option.some.inj h).symm⟩
  · cases h

theorem stopClear_spec (h : s.stopClear = some t) :
    s.stop = .walking [] true ∧ t = { s with packlist := [], stop := .cleared } := by
  unfold WsPacks.stopClear at h
  split at h
  · next stop => exact ⟨stop, (Option.some.inj h).symm⟩
  · cases h

/-- One step that is allowed. -/
theorem InOrder.step {e : Event} (h : InOrder s) (hstep : (system.restrict Ok).step s e t) :
    InOrder t := by
  obtain ⟨hok, hstep⟩ := hstep
  cases e with
  | addPack =>
    cases hstep
    exact h.addPack hok
  | swap =>
    cases hstep
    exact h.swap hok
  | stopBegin =>
    obtain ⟨hstop, rfl⟩ := stopBegin_spec hstep
    cases h with
    | before stop all none =>
      refine .walking rfl all ?_
      show s.packlist = s.deleted ++ s.packlist
      rw [none, List.nil_append]
    | walking stop | cleared stop =>
      rw [stop] at hstop
      cases hstop
  | stopDelete =>
    obtain ⟨p, rest, inList, hstop, rfl⟩ := stopDelete_spec hstep
    cases h with
    | walking stop all list =>
      rw [stop] at hstop
      cases hstop
      refine .walking rfl all ?_
      show s.packlist = s.deleted ++ [p] ++ rest
      rw [list, List.append_assoc]
      rfl
    | before stop | cleared stop =>
      rw [stop] at hstop
      cases hstop
  | stopClear =>
    obtain ⟨hstop, rfl⟩ := stopClear_spec hstep
    cases h with
    | walking stop all list =>
      rw [stop] at hstop
      cases hstop
      refine @InOrder.cleared _ s.returned [] rfl (List.append_nil _).symm ?_
      show s.returned ++ s.deleted ++ [] ++ [] = List.range s.added
      rw [← all, list, List.append_nil, List.append_nil, List.append_nil]
    | before stop | cleared stop =>
      rw [stop] at hstop
      cases hstop

/-- A run whose steps are all allowed. -/
theorem InOrder.run {events : List Event} (h : InOrder s)
    (hrun : (system.restrict Ok).Run s events t) : InOrder t :=
  hrun.invariant (fun _ _ _ hs hstep => hs.step hstep) h

/-! ### Where the packs end up -/

/-- What has been returned or deleted stays so, and no pack added is taken back. -/
theorem Settled.step {n : ℕ} {e : Event} (h : s.Settled n) (hstep : system.step s e t) :
    t.Settled n := by
  cases e with
  | addPack =>
    cases hstep
    exact h
  | swap =>
    cases hstep
    intro p hp
    rw [swap_returned]
    exact (h p hp).imp_left (List.mem_append_left _)
  | stopBegin =>
    obtain ⟨-, rfl⟩ := stopBegin_spec hstep
    exact h
  | stopDelete =>
    obtain ⟨p, rest, inList, -, rfl⟩ := stopDelete_spec hstep
    exact fun p hp => (h p hp).imp_right (List.mem_append_left _)
  | stopClear =>
    obtain ⟨-, rfl⟩ := stopClear_spec hstep
    exact h

theorem added_le {e : Event} (hstep : system.step s e t) : s.added ≤ t.added := by
  cases e with
  | addPack =>
    cases hstep
    exact Nat.le_succ _
  | swap =>
    cases hstep
    exact le_rfl
  | stopBegin =>
    obtain ⟨-, rfl⟩ := stopBegin_spec hstep
    exact le_rfl
  | stopDelete =>
    obtain ⟨p, rest, inList, -, rfl⟩ := stopDelete_spec hstep
    exact le_rfl
  | stopClear =>
    obtain ⟨-, rfl⟩ := stopClear_spec hstep
    exact le_rfl

/-- A `Swap` and the clear leave an empty list behind. -/
theorem packlist_eq_nil {e : Event} (he : e = .swap ∨ e = .stopClear) (hstep : system.step s e t) :
    t.packlist = [] := by
  rcases he with rfl | rfl
  · cases hstep
    rfl
  · obtain ⟨-, rfl⟩ := stopClear_spec hstep
    rfl

theorem Owned.settled (h : Owned s) (hlist : s.packlist = []) : s.Settled s.added := by
  intro p hp
  rcases h.kept p hp with hp | hp | hp
  · exact .inl hp
  · exact .inr hp
  · rw [hlist] at hp
    exact absurd hp List.not_mem_nil

theorem InOrder.settled {more : List Event} (h : InOrder s)
    (hrun : (system.restrict Ok).Run s more t) (hmore : .swap ∈ more ∨ .stopClear ∈ more) :
    t.Settled s.added := by
  induction hrun with
  | nil => exact absurd hmore (by simp)
  | @cons s u t e more hstep hrest ih =>
    have hle : s.added ≤ u.added := added_le hstep.2
    by_cases he : e = .swap ∨ e = .stopClear
    · have hu : u.Settled u.added := (h.step hstep).owned.settled (packlist_eq_nil he hstep.2)
      have hu' : u.Settled s.added := fun p hp => hu p (hp.trans_le hle)
      exact LTS.Run.invariant (I := (Settled · s.added)) (fun _ _ _ hs hstep => hs.step hstep) hu'
        hrest.of_restrict
    · rw [List.mem_cons, List.mem_cons] at hmore
      obtain ⟨hswap, hclear⟩ := not_or.1 he
      have hmore' : .swap ∈ more ∨ .stopClear ∈ more :=
        hmore.imp (·.resolve_left (Ne.symm hswap)) (·.resolve_left (Ne.symm hclear))
      exact fun p hp => ih (h.step hstep) hmore' p (hp.trans_le hle)

/-- `OnStop` alone comes from its walk to the clear. -/
theorem run_to_clear {rest : List ℕ} (hstop : s.stop = .walking rest true) :
    ∃ t, (system.restrict Ok).Run s (List.replicate rest.length .stopDelete ++ [.stopClear]) t := by
  induction rest generalizing s with
  | nil =>
    have hclear : s.step .stopClear = some { s with packlist := [], stop := .cleared } := by
      show s.stopClear = _
      unfold WsPacks.stopClear
      rw [hstop]
    exact ⟨_, .cons ⟨trivial, hclear⟩ (.nil _)⟩
  | cons p rest ih =>
    have hdelete : s.step .stopDelete =
        some { s with deleted := s.deleted ++ [p], stop := .walking rest true } := by
      show s.stopDelete = _
      unfold WsPacks.stopDelete
      rw [hstop]
    obtain ⟨t, ht⟩ := @ih { s with deleted := s.deleted ++ [p], stop := .walking rest true } rfl
    exact ⟨t, .cons ⟨trivial, hdelete⟩ ht⟩

theorem InOrder.settles (h : InOrder s) : Settles s where
  settled := fun _ _ hrun hmore => h.settled hrun hmore
  reached := by
    have hswap : (∀ rest inList, s.stop ≠ .walking rest inList) →
        ∃ more t, (system.restrict Ok).Run s more t ∧ (.swap ∈ more ∨ .stopClear ∈ more) ∧
          .addPack ∉ more := fun hout =>
      ⟨[.swap], _, .cons ⟨fun rest inList hstop => absurd hstop (hout rest inList), rfl⟩ (.nil _),
        .inl List.mem_cons_self, by simp⟩
    cases h with
    | before stop => exact hswap (by rw [stop]; nofun)
    | walking stop =>
      obtain ⟨t, ht⟩ := run_to_clear stop
      exact ⟨_, t, ht, .inr (by simp), by simp⟩
    | cleared stop => exact hswap (by rw [stop]; nofun)

/-! ### The steps that are left out -/

/-- A `Swap` that finds packs during the walk: one of them has been deleted, or is deleted next. -/
theorem InOrder.not_owned_of_swap (h : InOrder s) (hok : ¬ Ok s .swap) :
    ∃ more u, system.Run (s.swap []).1 more u ∧ ¬ Owned u := by
  have hok' : ∃ rest inList, s.stop = .walking rest inList ∧ s.packlist ≠ [] := by
    unfold Ok at hok
    push Not at hok
    exact hok
  obtain ⟨rest', inList, hstop, hne⟩ := hok'
  cases h with
  | before stop | cleared stop =>
    rw [stop] at hstop
    cases hstop
  | @walking rest stop all list =>
    -- a pack that is returned and deleted
    have htwice : ∀ {u : WsPacks} p, p ∈ u.returned → p ∈ u.deleted → ¬ Owned u :=
      fun p hr hd hu => (List.disjoint_of_nodup_append hu.once) hr hd
    have hreturned : ∀ p ∈ s.packlist, p ∈ (s.swap []).1.returned := fun p hp => by
      rw [swap_returned]
      exact List.mem_append_right _ hp
    cases hdeleted : s.deleted with
    | cons p deleted =>
      have hp : p ∈ s.deleted := by rw [hdeleted]; exact List.mem_cons_self
      refine ⟨[], _, .nil _, htwice p (hreturned p ?_) hp⟩
      rw [list]
      exact List.mem_append_left _ hp
    | nil =>
      rw [hdeleted, List.nil_append] at list
      cases rest with
      | nil => exact absurd list hne
      | cons p rest =>
        have hwalk : (s.swap []).1.stop = .walking (p :: rest) false := by
          unfold WsPacks.swap
          rw [stop]
        have hdelete : (s.swap []).1.step .stopDelete = some { (s.swap []).1 with
            deleted := s.deleted ++ [p], stop := .walking rest false } := by
          show (s.swap []).1.stopDelete = _
          unfold WsPacks.stopDelete
          rw [hwalk]
          rfl
        refine ⟨[.stopDelete], _, .cons hdelete (.nil _), htwice p (hreturned p ?_) ?_⟩
        · rw [list]
          exact List.mem_cons_self
        · exact List.mem_append_right _ List.mem_cons_self

/-- A pack that is added between the end of the walk and the clear: the clear may come next. -/
theorem InOrder.not_owned_of_addPack (h : InOrder s) (hok : ¬ Ok s .addPack) :
    ∃ more u, system.Run s.addPack more u ∧ ¬ Owned u := by
  have hok' : ∃ inList, s.stop = .walking [] inList := by
    unfold Ok at hok
    push Not at hok
    exact hok
  obtain ⟨inList, hstop⟩ := hok'
  cases h with
  | before stop | cleared stop =>
    rw [stop] at hstop
    cases hstop
  | @walking rest stop all list =>
    obtain rfl : rest = [] := by
      rw [stop] at hstop
      cases hstop
      rfl
    have hwalk : s.addPack.stop = .walking [] true := by
      unfold WsPacks.addPack
      rw [stop]
    have hclear : s.addPack.step .stopClear =
        some { s.addPack with packlist := [], stop := .cleared } := by
      show s.addPack.stopClear = _
      unfold WsPacks.stopClear
      rw [hwalk]
    refine ⟨[.stopClear], _, .cons hclear (.nil _), fun hu => ?_⟩
    have hnew : s.added ∉ s.returned ++ s.packlist := by
      rw [all]
      exact fun hp => lt_irrefl _ (List.mem_range.1 hp)
    rw [list, List.append_nil] at hnew
    rcases hu.kept s.added (Nat.lt_succ_self _) with hp | hp | hp
    · exact hnew (List.mem_append_left _ hp)
    · exact hnew (List.mem_append_right _ hp)
    · exact absurd hp List.not_mem_nil

/-! ### The result -/

/-- In every run, of any number of `AddPack` and `Swap` calls and the steps of `OnStop` in any order,
in which every step is allowed, every pack has one owner in every state and ends up returned or
deleted.  Every step that is not allowed leads to a state where a pack has two owners or none. -/
theorem owned_of_ok (events : List Event) (s : WsPacks)
    (h : (system.restrict Ok).Run new events s) :
    Owned s ∧ Settles s ∧
      ∀ e t, system.step s e t → ¬ Ok s e → ∃ more u, system.Run t more u ∧ ¬ Owned u := by
  have hs : InOrder s := InOrder.run (.before rfl rfl rfl) h
  refine ⟨hs.owned, hs.settles, fun e t hstep hok => ?_⟩
  cases e with
  | addPack =>
    cases hstep
    exact hs.not_owned_of_addPack hok
  | swap =>
    cases hstep
    exact hs.not_owned_of_swap hok
  | stopBegin | stopDelete | stopClear => exact absurd trivial hok

/-- A pack that is returned, one that is deleted, one that is returned after `OnStop`, and one that
waits: another `Swap` returns it. -/
theorem owned_of_ok_sample :
    Owned ⟨4, [3], [[0], [2]], [1], .cleared⟩ ∧
      Settled ⟨4, [], [[0], [2], [3]], [1], .cleared⟩ 4 := by
  have hrun : (system.restrict Ok).Run new [.addPack, .swap, .addPack, .stopBegin, .stopDelete,
      .stopClear, .addPack, .swap, .addPack] ⟨4, [3], [[0], [2]], [1], .cleared⟩ :=
    .cons ⟨nofun, rfl⟩ <| .cons ⟨nofun, rfl⟩ <| .cons ⟨nofun, rfl⟩ <| .cons ⟨trivial, rfl⟩ <|
    .cons ⟨trivial, rfl⟩ <| .cons ⟨trivial, rfl⟩ <| .cons ⟨nofun, rfl⟩ <| .cons ⟨nofun, rfl⟩ <|
    .cons ⟨nofun, rfl⟩ <| .nil _
  obtain ⟨howned, hsettles, -⟩ := owned_of_ok _ _ hrun
  refine ⟨howned, hsettles.settled [.swap] _ (.cons ⟨nofun, rfl⟩ (.nil _)) ?_⟩
  exact .inl List.mem_cons_self

/-- `MainThread` swaps between the deletion and the clear: it is given a pack that has been deleted. -/
theorem swapped_after_delete :
    ∃ s, system.Run new [.addPack, .stopBegin, .stopDelete, .swap] s ∧
      s.lists = [[0]] ∧ s.deleted = [0] ∧ ¬ Owned s := by
  refine ⟨⟨1, [], [[0]], [0], .walking [] true⟩, ?_, rfl, rfl, fun h => ?_⟩
  · exact .cons rfl (.cons rfl (.cons rfl (.cons rfl (.nil _))))
  · exact absurd h.once (by decide)

end WsPacks
end NetService

import Graphite.ReplicaCopies

/-! A replica that keeps pulling catches up. A round of its loop pulls a page and applies it;
a round that fails never moves the position back, and one that succeeds takes as many entries
off what is missing as it asked for. -/

namespace Graphite
open LockProgram GuardedRuns LogShipping

namespace Pulling
open LsmTree

variable {p : Platform} {c : Codec} {env env' : Env} {r : Pulling}

/-- The entries of the primary past the position of the replica. -/
def missing (r : Pulling) : List ReplicationEntry :=
  SortedPages.beyond ReplicationEntry.sequence r.tree.lastPrimarySequence r.primary.appended

theorem caughtUp_of_missing (h : r.missing = []) : r.CaughtUp := by
  intro e he
  by_contra hpast
  push Not at hpast
  have hmem : e ∈ r.missing := mem_beyond.mpr ⟨he, hpast⟩
  rw [h] at hmem
  cases hmem

/-- A page that is applied without an error is no longer missing. -/
theorem missing_apply (h : Inv c r) {batch : List ReplicationEntry} (hbatch : batch ∈ r.fetched)
    (hok : (exec (applyReplicationBatch p c env batch) [] (r.tree, r.time)).succeeded = true) :
    (apply p c env r batch).missing = r.missing.drop batch.length := by
  by_cases hne : batch = []
  · subst hne
    rw [apply, applyReplicationBatch, if_pos rfl]
    rfl
  obtain ⟨r', s', time', hexec, happlied⟩ := exec_apply p c env h.role h.levels r.time hne
  obtain ⟨x, hx, hmax, hpast⟩ := h.moves hbatch hne
  have hmoved : s'.lastPrimarySequence = some x.sequence := by
    rw [hexec] at hok
    cases r' with
    | error e => cases hok
    | ok n =>
      rw [← hmax]
      refine happlied.moved n rfl ?_
      cases hlast : r.tree.lastPrimarySequence with
      | none => exact Nat.zero_le _
      | some s => exact hmax ▸ (hpast s hlast).le
  obtain ⟨rest, hrest⟩ := h.fits batch hbatch
  have hpage : SortedPages.page ReplicationEntry.sequence r.primary.appended
      r.tree.lastPrimarySequence batch.length = batch := by
    rw [SortedPages.page, ← hrest, List.take_left]
  have hnext := SortedPages.beyond_next ReplicationEntry.sequence h.increasing
    r.tree.lastPrimarySequence batch.length
  rw [hpage, SortedPages.next, hx] at hnext
  rw [apply, hexec, missing]
  change SortedPages.beyond _ s'.lastPrimarySequence _ = _
  rw [hmoved]
  exact hnext

/-- Whatever becomes of a page, no more is missing than before. -/
theorem missing_apply_le (p : Platform) (env : Env) (h : Inv c r) {batch : List ReplicationEntry}
    (hbatch : batch ∈ r.fetched) :
    (apply p c env r batch).missing.length ≤ r.missing.length := by
  by_cases hne : batch = []
  · subst hne
    rw [apply, applyReplicationBatch, if_pos rfl]
    exact Nat.le_refl _
  obtain ⟨r', s', time', hexec, happlied⟩ := exec_apply p c env h.role h.levels r.time hne
  rw [apply, hexec]
  rcases happlied.position with hsame | ⟨-, hmoved⟩
  · change (SortedPages.beyond _ s'.lastPrimarySequence _).length ≤ _
    rw [hsame]
    exact Nat.le_refl _
  · obtain ⟨x, hx, hmax, -⟩ := h.moves hbatch hne
    have hmem := (h.fits batch hbatch).subset (List.mem_of_getLast? hx)
    change (SortedPages.beyond _ s'.lastPrimarySequence _).length ≤ _
    rw [hmoved, hmax, SortedPages.beyond_some _ hmem]
    exact List.length_filter_le _ _

/-- The rounds of the loop with these page limits. -/
def rounds (limits : List Nat) : List Event := limits.flatMap fun limit => [.fetch limit, .apply]

/-- The page that has been pulled is applied without an error. -/
def Applies (p : Platform) (c : Codec) (env : Env) (r : Pulling) : Prop :=
  ∀ batch ∈ r.fetched,
    (exec (applyReplicationBatch p c env batch) [] (r.tree, r.time)).succeeded = true

instance (p : Platform) (c : Codec) (env : Env) (r : Pulling) : Decidable (r.Applies p c env) :=
  inferInstanceAs (Decidable (∀ _ ∈ _, _ = _))

/-- The sum of the limits of the rounds that go well. -/
def granted (p : Platform) (c : Codec) (env env' : Env) : Pulling → List Nat → Nat
  | _, [] => 0
  | r, limit :: limits =>
    (if (step p c env env' r (.fetch limit)).Applies p c env' then limit else 0) +
      granted p c env env' (run (step p c env env') r (rounds [limit])) limits

theorem inv_rounds (p : Platform) (env env' : Env) (h : Inv c r) (limits : List Nat) :
    Inv c (run (step p c env env') r (rounds limits)) := by
  induction limits generalizing r with
  | nil => exact h
  | cons limit limits ih =>
    exact ih (inv_step p c env env' _ .apply (inv_fetch h limit) trivial)

/-- A round that goes well takes its limit off what is missing. -/
theorem missing_round (p : Platform) (env env' : Env) (h : Inv c r) (limit : Nat) :
    (run (step p c env env') r (rounds [limit])).missing.length ≤ r.missing.length -
      if (step p c env env' r (.fetch limit)).Applies p c env' then limit else 0 := by
  have hinv := inv_fetch h limit
  have hfetch := h.fetch_eq limit
  change (step p c env env' (fetch c r limit) .apply).missing.length ≤
    r.missing.length - if (fetch c r limit).Applies p c env' then limit else 0
  have hmissing : (fetch c r limit).missing = r.missing := by
    rw [hfetch]
    rfl
  have hbatch : (SortedPages.page ReplicationEntry.sequence r.primary.appended
      r.tree.lastPrimarySequence limit) ∈ (fetch c r limit).fetched := by
    rw [hfetch]
    rfl
  have hlength : (SortedPages.page ReplicationEntry.sequence r.primary.appended
      r.tree.lastPrimarySequence limit).length = min limit r.missing.length :=
    List.length_take
  rw [step, Option.mem_def.mp hbatch, Option.map_some, Option.getD_some]
  split_ifs with hok
  · rw [missing_apply hinv hbatch (hok _ hbatch), List.length_drop, hmissing, hlength]
    omega
  · have hle := missing_apply_le p env' hinv hbatch
    rw [hmissing] at hle
    exact hle

theorem missing_rounds (p : Platform) (env env' : Env) (h : Inv c r) (limits : List Nat) :
    (run (step p c env env') r (rounds limits)).missing.length ≤
      r.missing.length - granted p c env env' r limits := by
  induction limits generalizing r with
  | nil => exact Nat.le_refl _
  | cons limit limits ih =>
    have hround := missing_round p env env' h limit
    have hrest := ih (inv_rounds p env env' h [limit])
    rw [granted]
    change (run (step p c env env') (run (step p c env env') r (rounds [limit]))
      (rounds limits)).missing.length ≤ _
    omega

/-- Behind any run of orderly events, once the primary is quiet, the replica has caught up
when the rounds that go well have asked for as many entries as are missing. -/
theorem pulls_catch_up (p : Platform) (c : Codec) (env env' : Env)
    (primaryThreshold replicaThreshold : Nat) (events : List Event)
    (h : Guarded (step p c env env') (Orderly p c env) (start primaryThreshold replicaThreshold)
      events) (limits : List Nat)
    (hgranted : (run (step p c env env') (start primaryThreshold replicaThreshold)
      events).missing.length ≤ granted p c env env' (run (step p c env env')
        (start primaryThreshold replicaThreshold) events) limits) :
    (run (step p c env env') (start primaryThreshold replicaThreshold)
      (events ++ rounds limits)).CaughtUp := by
  have hinv : Inv c (run (step p c env env') (start primaryThreshold replicaThreshold) events) :=
    always_of_guarded (Inv c) (fun _ h => h) (inv_step p c env env')
      (inv_start c primaryThreshold replicaThreshold) h events List.prefix_rfl
  have hrounds := missing_rounds p env env' hinv limits
  rw [run_append]
  exact caughtUp_of_missing (List.eq_nil_of_length_eq_zero (by omega))

set_option maxRecDepth 20000 in
/-- A row overwritten while a page was on its way; pages of one entry. -/
theorem pulls_catch_up_two_rounds :
    (run (step .simple History.versionsCodec .calm .calm) (start 10 10)
      ([.primary (History.insertA 1), .fetch 500, .primary (History.insertA 2)] ++
        rounds [1, 1])).CaughtUp :=
  pulls_catch_up .simple History.versionsCodec .calm .calm 10 10 _ (by decide +kernel) [1, 1]
    (by decide +kernel)

end Pulling

end Graphite

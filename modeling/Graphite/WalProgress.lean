import Graphite.Wal

/-! What a call that appends to the log leaves there, whether it succeeds or not. -/

namespace Graphite
open BigEndian

namespace Wal

/-- The record stands in the file as a frame. -/
def Framed (c : Codec) (file : Bytes) (r : WalRecord) : Prop :=
  ∃ front back n payload, c.toVec r = .ok payload ∧
    file = front ++ encodeRecord c n payload ++ back

theorem Framed.mono {c : Codec} {file file' : Bytes} {r : WalRecord} (h : Framed c file r)
    (hgrown : file <+: file') : Framed c file' r := by
  obtain ⟨front, back, n, payload, hto, rfl⟩ := h
  obtain ⟨more, rfl⟩ := hgrown
  exact ⟨front, back ++ more, n, payload, hto, by simp only [List.append_assoc]⟩

theorem not_framed_nil (c : Codec) (r : WalRecord) : ¬ Framed c [] r := by
  rintro ⟨front, back, n, payload, -, hfile⟩
  have hlength := congrArg List.length hfile
  simp only [List.length_nil, List.length_append, length_encodeRecord, headerSize] at hlength
  omega

/-- What a call to append these records does, whether it fails or not: it counts `m` of
them, and when it has counted them all they are all in the file. -/
structure Progress (c : Codec) (w w' : Wal) (rs : List WalRecord) (m : Nat) : Prop where
  sequence : w'.sequence = w.sequence + m
  file : w.file <+: w'.file
  framed : m = rs.length → ∀ r ∈ rs, Framed c w'.file r

theorem progress_writeRecord (c : Codec) (fault : Option Nat) (w : Wal) (r : WalRecord) :
    (writeRecord c fault w r).2.sequence = w.sequence ∧
      w.file <+: (writeRecord c fault w r).2.file ∧
      ∀ n, (writeRecord c fault w r).1 = .ok n → Framed c (writeRecord c fault w r).2.file r := by
  unfold writeRecord
  cases hto : c.toVec r with
  | error message => exact ⟨rfl, List.prefix_rfl, fun n h => by cases h⟩
  | ok payload =>
    cases fault with
    | some n => exact ⟨rfl, List.prefix_append _ _, fun n h => by cases h⟩
    | none =>
      refine ⟨rfl, List.prefix_append _ _, fun n _ => ?_⟩
      exact ⟨w.file, [], w.sequence, payload, hto, (List.append_nil _).symm⟩

theorem advance_spec (w : Wal) (size : Nat) :
    ((∃ n, (advance w size).1 = .ok n) ∧ (advance w size).2.sequence = w.sequence + 1 ∨
      (∃ e, (advance w size).1 = .error e) ∧ (advance w size).2.sequence = w.sequence) ∧
      (advance w size).2.file = w.file := by
  simp only [advance]
  split_ifs
  · exact ⟨Or.inl ⟨⟨_, rfl⟩, rfl⟩, rfl⟩
  · exact ⟨Or.inr ⟨⟨_, rfl⟩, rfl⟩, rfl⟩

/-- A record that is written and counted. -/
theorem progress_advance {c : Codec} {fault : Option Nat} {w w₁ : Wal} {r : WalRecord} {size : Nat}
    (hwrite : writeRecord c fault w r = (.ok size, w₁)) :
    ((∃ n, (advance w₁ size).1 = .ok n) ∧ Progress c w (advance w₁ size).2 [r] 1) ∨
      (∃ e, (advance w₁ size).1 = .error e) ∧ Progress c w (advance w₁ size).2 [r] 0 := by
  obtain ⟨hsequence, hfile, hframed⟩ := progress_writeRecord c fault w r
  rw [hwrite] at hsequence hfile hframed
  obtain ⟨hcases, hsame⟩ := advance_spec w₁ size
  have hframe : ∀ x ∈ [r], Framed c (advance w₁ size).2.file x := by
    rw [hsame]
    exact List.forall_mem_singleton.mpr (hframed size rfl)
  have hgrown : w.file <+: (advance w₁ size).2.file := by rw [hsame]; exact hfile
  rcases hcases with ⟨hok, hcount⟩ | ⟨herror, hcount⟩
  · exact Or.inl ⟨hok, hcount.trans (congrArg (· + 1) hsequence), hgrown, fun _ => hframe⟩
  · exact Or.inr ⟨herror, hcount.trans hsequence, hgrown, fun h => by cases h⟩

theorem progress_append (c : Codec) (disk : Disk) (w : Wal) (r : WalRecord) :
    ∃ m, Progress c w (append c disk w r).2 [r] m ∧
      ∀ n, (append c disk w r).1 = .ok n → m = 1 := by
  obtain ⟨hsequence, hfile, -⟩ := progress_writeRecord c (disk.fault 0) w r
  unfold append
  cases hwrite : writeRecord c (disk.fault 0) w r with
  | mk result w₁ =>
    rw [hwrite] at hsequence hfile
    have hnone : Progress c w w₁ [r] 0 := ⟨hsequence, hfile, fun h => by cases h⟩
    cases result with
    | error e => exact ⟨0, hnone, fun n h => by cases h⟩
    | ok size =>
      dsimp only
      split_ifs
      · rcases progress_advance hwrite with ⟨-, h⟩ | ⟨⟨e, he⟩, h⟩
        · exact ⟨1, h, fun _ _ => rfl⟩
        · refine ⟨0, h, fun n hn => ?_⟩
          rw [he] at hn
          cases hn
      · exact ⟨0, hnone, fun n h => by cases h⟩

theorem progress_appendBatch (c : Codec) (disk : Disk) (w : Wal) (rs : List WalRecord) :
    ∃ m ≤ rs.length, Progress c w (appendBatch c disk w rs).2 rs m ∧
      ∀ n, (appendBatch c disk w rs).1 = .ok n → m = rs.length := by
  induction rs generalizing disk w with
  | nil => exact ⟨0, le_rfl, ⟨rfl, List.prefix_rfl, fun _ => List.forall_mem_nil _⟩, fun _ _ => rfl⟩
  | cons r rs ih =>
    obtain ⟨hsequence, hfile, -⟩ := progress_writeRecord c (disk.fault 0) w r
    unfold appendBatch
    cases hwrite : writeRecord c (disk.fault 0) w r with
    | mk result w₁ =>
      rw [hwrite] at hsequence hfile
      cases result with
      | error e => exact ⟨0, Nat.zero_le _, ⟨hsequence, hfile, fun h => by cases h⟩, fun n h => by cases h⟩
      | ok size =>
        dsimp only
        cases hadvance : advance w₁ size with
        | mk result w₂ =>
          have hstep := progress_advance hwrite
          rw [hadvance] at hstep
          rcases hstep with ⟨⟨n, rfl⟩, h⟩ | ⟨⟨e, rfl⟩, h⟩
          · obtain ⟨m, hm, hrest, hok⟩ := ih ⟨fun i => disk.fault (i + 1), disk.synced⟩ w₂
            refine ⟨m + 1, Nat.succ_le_succ hm, ⟨?_, h.file.trans hrest.file, ?_⟩, ?_⟩
            · rw [hrest.sequence, h.sequence, Nat.add_assoc, Nat.add_comm 1 m]
            · intro hall
              refine List.forall_mem_cons.mpr ⟨?_, hrest.framed (Nat.succ.inj hall)⟩
              exact (h.framed rfl r List.mem_cons_self).mono hrest.file
            · exact fun n hn => congrArg (· + 1) (hok n hn)
          · exact ⟨0, Nat.zero_le _, ⟨h.sequence, h.file, fun h => by cases h⟩, fun n h => by cases h⟩

end Wal

end Graphite

import Graphite.BitPacker

/-! Which widths the bit-buffer loops carry without loss. The bit counts between two values
are multiples of every divisor that the width shares with eight, so even widths leave less
behind in the buffer. -/

namespace Graphite.BitPacker

/-- Where the width and the bit count are multiples of `g`, at most `8 - g` bits wait. -/
theorem survives_of_dvd {g w : Nat} (hg : g ∣ 8) (hw : g ∣ w) (hroom : w + 8 ≤ 64 + g) {c : Nat}
    (hc : c < 8) (hgc : g ∣ c) (vs : List Nat) : Survives w c vs := by
  induction vs generalizing c with
  | nil => trivial
  | cons v vs ih =>
    have hfront : c + g ≤ 8 := Nat.add_le_of_le_sub (Nat.le_of_dvd (by omega) hg)
      (by have := Nat.le_of_dvd (by omega) (Nat.dvd_sub hg hgc); omega)
    have hback : (8 - c) % 8 + g ≤ 8 := by
      have hdvd : g ∣ (8 - c) % 8 := (Nat.dvd_mod_iff hg).mpr (Nat.dvd_sub hg hgc)
      have hlt : (8 - c) % 8 < 8 := Nat.mod_lt _ (by omega)
      have := Nat.le_of_dvd (by omega) (Nat.dvd_sub hg hdvd)
      omega
    refine ⟨fun j hj _ => ⟨by omega, fun _ => by omega⟩, ih (Nat.mod_lt _ (by omega)) ?_⟩
    exact (Nat.dvd_mod_iff hg).mpr (Nat.dvd_add hgc hw)

theorem survives_of_width {w : Nat} (hw : w ≤ 58 ∨ w = 60) (vs : List Nat) : Survives w 0 vs := by
  rcases hw with hw | rfl
  · rcases Nat.lt_or_ge w 58 with hlt | hge
    · exact survives_of_le (by omega) 0 (by omega) vs
    · obtain rfl : w = 58 := le_antisymm hw hge
      exact survives_of_dvd (g := 2) (by decide) (by decide) (by omega) (by omega) (by decide) vs
  · exact survives_of_dvd (g := 4) (by decide) (by decide) (by omega) (by omega) (by decide) vs

/-- At the other widths four values with every bit set lose one. -/
theorem not_survives_ones {w : Nat} (hw : w < 64) (hnot : ¬ (w ≤ 58 ∨ w = 60)) :
    ¬ Survives w 0 (List.replicate 4 (2 ^ w - 1)) := by
  obtain rfl | rfl | rfl | rfl : w = 59 ∨ w = 61 ∨ w = 62 ∨ w = 63 := by omega
  all_goals decide +kernel

/-- What is packed comes back. -/
def Lossless (w : Nat) (vs : List Nat) : Prop :=
  ∃ out, pack w vs 0 0 = some out ∧ unpack w vs.length ⟨out, 0, 0⟩ = some vs

instance decidableLossless (w : Nat) (vs : List Nat) : Decidable (Lossless w vs) :=
  decidable_of_iff ((pack w vs 0 0).any fun out => unpack w vs.length ⟨out, 0, 0⟩ = some vs)
    (by simp [Lossless, Option.any_eq_true])

theorem lossless_iff {w : Nat} (hw : w < 64) {vs : List Nat} (hvs : ∀ v ∈ vs, v < 2 ^ w) :
    Lossless w vs ↔ Survives w 0 vs := by
  obtain ⟨out, hout, -, hiff⟩ := unpack_pack_iff hw vs hvs
  rw [Lossless, hout, ← hiff]
  simp

/-- Neither loop panics at any width; a list comes back exactly when none of its bits is
pushed past the buffer, and every list does exactly up to width 58 and at width 60. -/
theorem packing_lossless_iff (w : Nat) (hpos : 1 ≤ w) (hw : w ≤ 63) :
    (∀ vs : List Nat, (∀ v ∈ vs, v < 2 ^ w) →
      (∃ out, pack w vs 0 0 = some out ∧ (unpack w vs.length ⟨out, 0, 0⟩).isSome) ∧
      (Lossless w vs ↔ Survives w 0 vs)) ∧
    ((∀ vs : List Nat, (∀ v ∈ vs, v < 2 ^ w) → Lossless w vs) ↔ w ≤ 58 ∨ w = 60) := by
  refine ⟨fun vs hvs => ⟨?_, lossless_iff (by omega) hvs⟩, fun h => ?_, fun h vs hvs => ?_⟩
  · obtain ⟨out, hout, ⟨us, hus⟩, -⟩ := unpack_pack_iff (by omega) vs hvs
    exact ⟨out, hout, by rw [hus, Option.isSome_some]⟩
  · by_contra hnot
    have hones : ∀ v ∈ List.replicate 4 (2 ^ w - 1), v < 2 ^ w := by
      intro v hv
      rw [List.eq_of_mem_replicate hv]
      exact Nat.sub_lt (Nat.two_pow_pos w) Nat.one_pos
    exact not_survives_ones (by omega) hnot ((lossless_iff (by omega) hones).mp (h _ hones))
  · exact (lossless_iff (by omega) hvs).mpr (survives_of_width h vs)

theorem packing_lossless_iff_wide :
    (∀ vs : List Nat, (∀ v ∈ vs, v < 2 ^ 63) →
      (∃ out, pack 63 vs 0 0 = some out ∧ (unpack 63 vs.length ⟨out, 0, 0⟩).isSome) ∧
      (Lossless 63 vs ↔ Survives 63 0 vs)) ∧
    ((∀ vs : List Nat, (∀ v ∈ vs, v < 2 ^ 63) → Lossless 63 vs) ↔ 63 ≤ 58 ∨ 63 = 60) :=
  packing_lossless_iff 63 (by decide) (by decide)

/-- Two values of 63 bits: the second is placed at bit 7, and its high bits are lost. -/
theorem wide_values_lost : ¬ ∀ w, 1 ≤ w → w ≤ 63 →
    ∀ vs : List Nat, (∀ v ∈ vs, v < 2 ^ w) → Lossless w vs := by
  intro h
  have hlost : ¬ Lossless 63 [2 ^ 63 - 1, 2 ^ 63 - 1] := by decide +kernel
  exact hlost (h 63 (by decide) (by decide) _ (by decide))

end Graphite.BitPacker

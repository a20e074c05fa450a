import Graphite.SsTable

/-! Opening a table on arbitrary bytes. The sections are read where the footer says, and what
they hold is taken apart without a look at their length. -/

namespace Graphite.SsTable
open BigEndian

/-- The bytes a read finds; nothing is read of a section of size zero. -/
def sectionOf (file : Bytes) (offset size : Nat) : Option Bytes :=
  if size = 0 then some [] else slice file offset (offset + size)

/-- The section fits the address space, and `ok` holds of its bytes if the file has them. -/
def SectionOk (file : Bytes) (offset size : Nat) (ok : Bytes → Prop) : Prop :=
  2 ^ 63 ≤ offset ∨ size < 2 ^ 63 ∧ ∀ buf ∈ sectionOf file offset size, ok buf

/-- Eight numbers of eight bytes. -/
def footerOf (buf : Bytes) : Footer :=
  let u64 := fun (i : Nat) => decode ((buf.drop (8 * i)).take 8)
  ⟨u64 0, u64 1, u64 2, u64 3, u64 4, u64 5, u64 6, u64 7⟩

/-- The metadata section has its fixed part, the index section as many entries as it counts,
and the dictionary is all there behind the fixed part. -/
def SectionsOk (file : Bytes) (footer : Footer) : Prop :=
  SectionOk file footer.metaOffset footer.metaSize fun fixed => 32 ≤ fixed.length ∧
    SectionOk file footer.indexOffset footer.indexSize fun index =>
      (4 ≤ index.length ∧ 4 + 22 * decode (index.take 4) ≤ index.length) ∧
        SectionOk file footer.bloomOffset footer.bloomSize fun bloom => 12 ≤ bloom.length →
          SectionOk file footer.metaOffset footer.metaSize fun dict =>
            44 ≤ dict.length ∧ 44 + decode ((dict.drop 40).take 4) ≤ dict.length

/-- A file with the magic number and a version has a footer, and what it says is so. -/
def Openable (file : Bytes) : Prop :=
  SectionOk file 0 4 fun magic => decode magic = MAGIC → SectionOk file 4 2 fun _ =>
    64 ≤ file.length ∧ SectionOk file (file.length - 64) 64 fun tail =>
      SectionsOk file (footerOf tail)

def Returns {α : Type} (x : Except (Stop SsTableError) α) : Prop := x ≠ .error .panic

variable {α β : Type}

@[simp] theorem returns_pure (a : α) : Returns (pure a) := by simp [Returns, pure, Except.pure]

@[simp] theorem returns_error (e : SsTableError) : Returns (.error (.error e) : Except _ α) := by
  simp [Returns]

@[simp] theorem not_returns_panic : ¬ Returns (.error .panic : Except _ α) := by simp [Returns]

theorem sectionOk_congr {file : Bytes} {offset size : Nat} {ok ok' : Bytes → Prop}
    (h : ∀ buf, ok buf ↔ ok' buf) : SectionOk file offset size ok ↔ SectionOk file offset size ok' := by
  simp only [SectionOk, h]

/-- A read returns its bytes or an error, unless its size leaves the address space. -/
theorem returns_readSection (file : Bytes) (offset size : Nat)
    (k : Bytes → Except (Stop SsTableError) β) :
    Returns (readSection file offset size >>= k) ↔
      SectionOk file offset size fun buf => Returns (k buf) := by
  rw [readSection, SectionOk, sectionOf]
  by_cases hoffset : 2 ^ 63 ≤ offset
  · rw [if_pos hoffset]
    exact iff_of_true (returns_error _) (Or.inl hoffset)
  · by_cases hsize : 2 ^ 63 ≤ size
    · rw [if_neg hoffset, if_pos hsize]
      refine iff_of_false not_returns_panic fun h => ?_
      exact h.elim hoffset fun h => absurd h.1 (Nat.not_lt.mpr hsize)
    · rw [if_neg hoffset, if_neg hsize, or_iff_right hoffset, and_iff_right (Nat.not_le.mp hsize)]
      by_cases hzero : size = 0
      · rw [if_pos hzero, if_pos hzero]
        simp [bind, Except.bind]
      · rw [if_neg hzero, if_neg hzero]
        cases slice file offset (offset + size) with
        | none => exact iff_of_true (returns_error _) (by simp)
        | some bytes => simp [bind, Except.bind]

theorem returns_field {buf : Bytes} {lo hi : Nat} (hle : lo ≤ hi)
    (k : Bytes → Except (Stop SsTableError) β) :
    Returns (field buf lo hi >>= k) ↔
      hi ≤ buf.length ∧ Returns (k ((buf.drop lo).take (hi - lo))) := by
  unfold field slice
  by_cases hhi : hi ≤ buf.length
  · rw [if_pos ⟨hle, hhi⟩]
    simp [hhi, bind, Except.bind]
  · rw [if_neg fun h => hhi h.2]
    exact iff_of_false not_returns_panic fun h => hhi h.1

theorem returns_indexLoop (buf : Bytes) (count : Nat) {offset : Nat} (hoffset : offset ≤ buf.length)
    {k : List IndexEntry → Except (Stop SsTableError) β} {Q : Prop} (hk : ∀ e, Returns (k e) ↔ Q) :
    Returns (indexLoop buf count offset >>= k) ↔ offset + 22 * count ≤ buf.length ∧ Q := by
  induction count generalizing offset k with
  | zero => simp [indexLoop, bind, Except.bind, hk, hoffset]
  | succ count ih =>
    have hstep : Returns (indexLoop buf (count + 1) offset >>= k) ↔
        offset + 22 ≤ buf.length ∧ Returns (indexLoop buf count (offset + 22) >>= fun rest =>
          k (⟨⟨UInt16.ofNat (decode (((buf.drop offset).take 10).take 2)),
            decodeI64 (((buf.drop offset).take 10).drop 2)⟩,
            decode ((buf.drop (offset + 10)).take 8), decode ((buf.drop (offset + 18)).take 4)⟩ ::
              rest)) := by
      rw [indexLoop]
      simp only [bind_assoc, pure_bind]
      rw [returns_field (by omega), returns_field (by omega), returns_field (by omega)]
      simp only [Nat.add_sub_cancel_left, Nat.add_sub_add_left, Nat.reduceSub]
      constructor
      · rintro ⟨-, -, hroom, h⟩
        exact ⟨hroom, h⟩
      · rintro ⟨hroom, h⟩
        exact ⟨by omega, by omega, hroom, h⟩
    rw [hstep]
    constructor
    · rintro ⟨hroom, h⟩
      obtain ⟨hrest, hq⟩ := (ih hroom fun e => hk _).mp h
      exact ⟨by omega, hq⟩
    · rintro ⟨hroom, hq⟩
      have hnext : offset + 22 ≤ buf.length := by omega
      exact ⟨hnext, (ih hnext fun e => hk _).mpr ⟨by omega, hq⟩⟩

theorem returns_readMetadata (file : Bytes) (footer : Footer)
    {k : SsTableMeta → Except (Stop SsTableError) β} {Q : Prop} (hk : ∀ m, Returns (k m) ↔ Q) :
    Returns (readMetadata file footer >>= k) ↔
      SectionOk file footer.metaOffset footer.metaSize fun fixed => 32 ≤ fixed.length ∧ Q := by
  rw [readMetadata, bind_assoc, returns_readSection]
  refine sectionOk_congr fun buf => ?_
  simp only [bind_assoc, pure_bind]
  rw [returns_field (by omega), returns_field (by omega), returns_field (by omega),
    returns_field (by omega), returns_field (by omega), returns_field (by omega), hk]
  constructor
  · rintro ⟨-, -, -, -, -, hroom, hq⟩
    exact ⟨hroom, hq⟩
  · rintro ⟨hroom, hq⟩
    exact ⟨by omega, by omega, by omega, by omega, by omega, hroom, hq⟩

theorem returns_readIndex (file : Bytes) (footer : Footer)
    {k : List IndexEntry → Except (Stop SsTableError) β} {Q : Prop} (hk : ∀ e, Returns (k e) ↔ Q) :
    Returns (readIndex file footer >>= k) ↔
      SectionOk file footer.indexOffset footer.indexSize fun index =>
        (4 ≤ index.length ∧ 4 + 22 * decode (index.take 4) ≤ index.length) ∧ Q := by
  rw [readIndex, bind_assoc, returns_readSection]
  refine sectionOk_congr fun buf => ?_
  rw [bind_assoc, returns_field (by omega), and_assoc]
  exact and_congr_right fun hroom => returns_indexLoop buf _ hroom hk

theorem returns_readBloom (file : Bytes) (footer : Footer)
    {k : BloomFilter → Except (Stop SsTableError) β} {Q : Prop} (hk : ∀ f, Returns (k f) ↔ Q) :
    Returns (readBloom file footer >>= k) ↔
      SectionOk file footer.bloomOffset footer.bloomSize fun bloom => 12 ≤ bloom.length → Q := by
  rw [readBloom, bind_assoc, returns_readSection]
  refine sectionOk_congr fun buf => ?_
  unfold BloomFilter.fromEncoded
  split_ifs with hshort
  · exact iff_of_true (returns_error _) fun h => absurd h (Nat.not_le.mpr hshort)
  · simp [hk, Nat.not_lt.mp hshort]

theorem returns_readSymbolDict (file : Bytes) (footer : Footer)
    {k : SymbolDictionary → Except (Stop SsTableError) β} (hk : ∀ d, Returns (k d)) :
    Returns (readSymbolDict file footer >>= k) ↔
      SectionOk file footer.metaOffset footer.metaSize fun dict =>
        44 ≤ dict.length ∧ 44 + decode ((dict.drop 40).take 4) ≤ dict.length := by
  rw [readSymbolDict, bind_assoc, returns_readSection]
  refine sectionOk_congr fun buf => ?_
  rw [bind_assoc, returns_field (by omega), bind_assoc, returns_field (by omega), pure_bind]
  simp [hk]

theorem returns_readFooter (file : Bytes) (k : Footer → Except (Stop SsTableError) β) :
    Returns (readFooter file >>= k) ↔ 64 ≤ file.length ∧
      SectionOk file (file.length - 64) 64 fun tail => Returns (k (footerOf tail)) := by
  unfold readFooter
  split_ifs with hshort
  · exact iff_of_false not_returns_panic fun h => absurd h.1 (Nat.not_le.mpr hshort)
  · dsimp only
    rw [bind_assoc, returns_readSection, and_iff_right (Nat.not_lt.mp hshort)]
    exact sectionOk_congr fun tail => by rw [pure_bind, footerOf]

end Graphite.SsTable

import Graphite.BitStream
import Graphite.Columns

/-! Gorilla XOR coding read back. The significant bits of a word are cut to whole bytes
and shifted back in place, so that every step of the decoder ends where the next code
begins. -/

namespace Graphite
open BigEndian

theorem trailingZeros_eq_some {x : UInt64} (h : x ≠ 0) :
    ∃ i, trailingZeros x = i ∧ i < 64 ∧ x.toNat.testBit i = true ∧
      ∀ j < i, x.toNat.testBit j = false := by
  have hne : x.toNat ≠ 0 := fun hzero => h (UInt64.toNat_inj.mp hzero)
  obtain ⟨k, hk⟩ := Nat.exists_testBit_of_ne_zero hne
  have hk64 : k < 64 := by
    by_contra hlt
    rw [Nat.testBit_eq_false_of_lt (lt_of_lt_of_le x.toNat_lt
      (Nat.pow_le_pow_right (by omega) (not_lt.mp hlt)))] at hk
    cases hk
  cases hfind : (List.range 64).find? fun i => x.toNat.testBit i with
  | none =>
    rw [List.find?_eq_none] at hfind
    exact absurd hk (hfind k (List.mem_range.mpr hk64))
  | some i =>
    rw [List.find?_range_eq_some] at hfind
    obtain ⟨hbit, hmem, hbelow⟩ := hfind
    exact ⟨i, by rw [trailingZeros, List.find?_range_eq_some.mpr ⟨hbit, hmem, hbelow⟩]; rfl,
      List.mem_range.mp hmem, hbit, fun j hj => by simpa using hbelow j hj⟩

/-- The zeros around the significant bits of a word that is not zero. -/
theorem zeros_of_ne_zero {x : UInt64} (h : x ≠ 0) :
    leadingZeros x + trailingZeros x < 64 ∧ 2 ^ trailingZeros x ∣ x.toNat ∧
      x.toNat < 2 ^ (64 - leadingZeros x) := by
  obtain ⟨i, hi, hlt, hbit, hbelow⟩ := trailingZeros_eq_some h
  have hne : x.toNat ≠ 0 := fun hzero => h (UInt64.toNat_inj.mp hzero)
  have hlog : x.toNat.log2 < 64 := (Nat.log2_lt hne).mpr x.toNat_lt
  have hle : i ≤ x.toNat.log2 := (Nat.le_log2 hne).mpr (Nat.ge_two_pow_of_testBit hbit)
  have hleading : leadingZeros x = 63 - x.toNat.log2 := if_neg h
  have hwidth : 64 - leadingZeros x = x.toNat.log2 + 1 := by omega
  rw [hi, hwidth]
  refine ⟨by omega, Nat.dvd_of_mod_eq_zero ?_, Nat.lt_log2_self⟩
  refine Nat.eq_of_testBit_eq fun j => ?_
  rw [Nat.testBit_mod_two_pow, Nat.zero_testBit, Bool.and_eq_false_iff, decide_eq_false_iff_not]
  by_cases hj : j < i
  · exact Or.inr (hbelow j hj)
  · exact Or.inl hj

namespace Gorilla

/-- The bytes of the significant bits, shifted back, are the word. -/
theorem shift_back {x : UInt64} (h : x ≠ 0) :
    let nbytes := (64 - leadingZeros x - trailingZeros x + 7) / 8
    let stored :=
      (BigEndian.encode 8 (x >>> UInt64.ofNat (trailingZeros x)).toNat).drop (8 - nbytes)
    stored.length = nbytes ∧
      UInt64.ofNat (BigEndian.decode stored) <<< UInt64.ofNat (trailingZeros x) = x := by
  obtain ⟨hzeros, hdvd, hlt⟩ := zeros_of_ne_zero h
  generalize trailingZeros x = t at hzeros hdvd ⊢
  generalize leadingZeros x = l at hzeros hlt ⊢
  have ht : (UInt64.ofNat t).toNat % 64 = t := by
    rw [UInt64.toNat_ofNat_of_lt' (lt_of_lt_of_le (by omega : t < 64) (by decide)),
      Nat.mod_eq_of_lt (by omega)]
  have hshift : (x >>> UInt64.ofNat t).toNat = x.toNat / 2 ^ t := by
    rw [UInt64.toNat_shiftRight, ht, Nat.shiftRight_eq_div_pow]
  generalize hn : (64 - l - t + 7) / 8 = nbytes
  have hle : nbytes ≤ 8 := by omega
  have hsmall : x.toNat / 2 ^ t < 256 ^ nbytes := by
    have hbits : x.toNat / 2 ^ t < 2 ^ (64 - l - t) := by
      rw [Nat.div_lt_iff_lt_mul (Nat.two_pow_pos t), ← pow_add]
      exact lt_of_lt_of_le hlt (Nat.pow_le_pow_right (by omega) (by omega))
    have hbytes : 256 ^ nbytes = 2 ^ (8 * nbytes) := by rw [Nat.pow_mul]
    rw [hbytes]
    exact lt_of_lt_of_le hbits (Nat.pow_le_pow_right (by omega) (by omega))
  have hdrop : (BigEndian.encode 8 (x.toNat / 2 ^ t)).drop (8 - nbytes) =
      BigEndian.encode nbytes (x.toNat / 2 ^ t) := by
    obtain ⟨front, hfront⟩ : ∃ front, 8 = front + nbytes := ⟨8 - nbytes, by omega⟩
    rw [hfront, encode_add, Nat.add_sub_cancel, List.drop_left' (length_encode _ _)]
  simp only [hshift, hdrop, length_encode, decode_encode_of_lt hsmall, true_and]
  apply UInt64.toNat_inj.mp
  have hdiv : x.toNat / 2 ^ t < 2 ^ 64 := lt_of_le_of_lt (Nat.div_le_self _ _) x.toNat_lt
  rw [UInt64.toNat_shiftLeft, UInt64.toNat_ofNat_of_lt' hdiv, ht, Nat.shiftLeft_eq,
    Nat.div_mul_cancel hdvd, Nat.mod_eq_of_lt x.toNat_lt]

theorem decodeLoop_same {data : Bytes} {n offset : Nat} {prev : UInt64}
    (hcontrol : data[offset]? = some 0) :
    decodeLoop data (n + 1) offset prev =
      (decodeLoop data n (offset + 1) prev).map (⟨prev⟩ :: ·) := by
  rw [decodeLoop, hcontrol]
  cases decodeLoop data n (offset + 1) prev <;> rfl

theorem decodeLoop_whole {data stored : Bytes} {n offset : Nat} {prev cur : UInt64}
    (hcontrol : data[offset]? = some 2)
    (hstored : slice data (offset + 1) (offset + 9) = some stored)
    (hcur : prev ^^^ UInt64.ofNat (BigEndian.decode stored) = cur) :
    decodeLoop data (n + 1) offset prev =
      (decodeLoop data n (offset + 9) cur).map (⟨cur⟩ :: ·) := by
  obtain ⟨⟨-, hlen⟩, -⟩ := (slice_eq_some_iff _ _ _ _).mp hstored
  rw [decodeLoop, hcontrol]
  simp only [if_neg (show ¬ offset + 1 + 8 > data.length by omega), hstored, hcur,
    Option.bind_eq_bind, Option.bind_some]
  cases decodeLoop data n (offset + 9) cur <;> rfl

theorem decodeLoop_cut {data stored : Bytes} {n offset nbytes : Nat} {prev cur : UInt64}
    {leading trailing : UInt8} (hcontrol : data[offset]? = some 1)
    (hleading : data[offset + 1]? = some leading) (htrailing : data[offset + 2]? = some trailing)
    (hzeros : leading.toNat + trailing.toNat ≤ 64)
    (hbytes : (64 - leading.toNat - trailing.toNat + 7) / 8 = nbytes)
    (hstored : slice data (offset + 3) (offset + 3 + nbytes) = some stored)
    (hcur : (prev ^^^ if trailing.toNat < 64 then
      UInt64.ofNat (BigEndian.decode stored) <<< UInt64.ofNat trailing.toNat else 0) = cur) :
    decodeLoop data (n + 1) offset prev =
      (decodeLoop data n (offset + 3 + nbytes) cur).map (⟨cur⟩ :: ·) := by
  obtain ⟨⟨-, hlen⟩, -⟩ := (slice_eq_some_iff _ _ _ _).mp hstored
  rw [decodeLoop, hcontrol]
  simp only [if_neg (show ¬ offset + 1 + 2 > data.length by omega), hleading, htrailing,
    Option.bind_eq_bind, Option.bind_some, hbytes,
    if_neg (show ¬ leading.toNat + trailing.toNat > 64 by omega),
    if_neg (show ¬ offset + 3 + nbytes > data.length by omega), hstored, hcur]
  cases decodeLoop data n (offset + 3 + nbytes) cur <;> rfl

theorem getElem?_behind (front coded tail : Bytes) {i offset : Nat} (ho : front.length + i = offset)
    (h : i < coded.length) : (front ++ coded ++ tail)[offset]? = coded[i]? := by
  rw [← ho, List.append_assoc, List.getElem?_append_right (by omega), Nat.add_sub_cancel_left,
    List.getElem?_append_left h]

theorem slice_behind (front head stored tail : Bytes) {lo hi : Nat}
    (hlo : front.length + head.length = lo) (hhi : lo + stored.length = hi) :
    slice (front ++ (head ++ stored) ++ tail) lo hi = some stored := by
  rw [← List.append_assoc]
  exact slice_append _ _ _ _ _ (by simp [hlo]) hhi

/-- The bytes written for one value after another. -/
def codeOf (prev cur : UInt64) : Bytes :=
  let xor := cur ^^^ prev
  if xor = 0 then [0]
  else if 64 - leadingZeros xor - trailingZeros xor ≤ 48 then
    [1, UInt8.ofNat (leadingZeros xor), UInt8.ofNat (trailingZeros xor)] ++
      (BigEndian.encode 8 (xor >>> UInt64.ofNat (trailingZeros xor)).toNat).drop
        (8 - (64 - leadingZeros xor - trailingZeros xor + 7) / 8)
  else 2 :: BigEndian.encode 8 xor.toNat

theorem encodeLoop_cons (prev : UInt64) (val : F64) (rest : List F64) :
    encodeLoop prev (val :: rest) = codeOf prev val.bits ++ encodeLoop val.bits rest := rfl

/-- One turn of the decoder reads one code and stops behind it. -/
theorem decodeLoop_codeOf (front tail : Bytes) (n : Nat) (prev cur : UInt64) :
    decodeLoop (front ++ codeOf prev cur ++ tail) (n + 1) front.length prev =
      (decodeLoop (front ++ codeOf prev cur ++ tail) n (front ++ codeOf prev cur).length cur).map
        (⟨cur⟩ :: ·) := by
  have hback : prev ^^^ (cur ^^^ prev) = cur := by
    rw [UInt64.xor_comm cur, ← UInt64.xor_assoc, UInt64.xor_self, UInt64.zero_xor]
  unfold codeOf
  generalize cur ^^^ prev = xor at hback
  dsimp only
  split_ifs with hxor hsig
  · have hcontrol := getElem?_behind front [0] tail (Nat.add_zero _) (by simp)
    rw [hxor, UInt64.xor_zero] at hback
    rw [decodeLoop_same hcontrol, hback, List.length_append, List.length_singleton]
  · obtain ⟨hstored, hshift⟩ := shift_back hxor
    obtain ⟨hzeros, -, -⟩ := zeros_of_ne_zero hxor
    have hl : (UInt8.ofNat (leadingZeros xor)).toNat = leadingZeros xor :=
      UInt8.toNat_ofNat_of_lt' (lt_of_lt_of_le (by omega : leadingZeros xor < 64) (by decide))
    have ht : (UInt8.ofNat (trailingZeros xor)).toNat = trailingZeros xor :=
      UInt8.toNat_ofNat_of_lt' (lt_of_lt_of_le (by omega : trailingZeros xor < 64) (by decide))
    generalize hbytes : (64 - leadingZeros xor - trailingZeros xor + 7) / 8 = nbytes
      at hstored hshift ⊢
    generalize (BigEndian.encode 8 (xor >>> UInt64.ofNat (trailingZeros xor)).toNat).drop
      (8 - nbytes) = stored at hstored hshift ⊢
    have hcoded : ([1, UInt8.ofNat (leadingZeros xor), UInt8.ofNat (trailingZeros xor)] ++
        stored).length = 3 + nbytes := by
      rw [List.length_append, hstored]
      rfl
    have hcontrol := getElem?_behind front _ tail (Nat.add_zero _) (by rw [hcoded]; omega)
    have hleading := getElem?_behind front _ tail (Eq.refl (front.length + 1))
      (by rw [hcoded]; omega)
    have htrailing := getElem?_behind front _ tail (Eq.refl (front.length + 2))
      (by rw [hcoded]; omega)
    have hslice := slice_behind front
      [1, UInt8.ofNat (leadingZeros xor), UInt8.ofNat (trailingZeros xor)] stored tail
      (Eq.refl (front.length + 3)) (by rw [hstored])
    rw [decodeLoop_cut hcontrol hleading htrailing (by rw [hl, ht]; exact hzeros.le)
      (by rw [hl, ht]; exact hbytes) hslice
      (by rw [ht, if_pos (show trailingZeros xor < 64 by omega), hshift, hback]),
      List.length_append, hcoded, ← Nat.add_assoc]
  · have hcontrol := getElem?_behind front (2 :: BigEndian.encode 8 xor.toNat) tail
      (Nat.add_zero _) (by simp)
    have hstored : slice (front ++ 2 :: BigEndian.encode 8 xor.toNat ++ tail) (front.length + 1)
        (front.length + 9) = some (BigEndian.encode 8 xor.toNat) :=
      slice_behind front [2] (BigEndian.encode 8 xor.toNat) tail rfl (by simp)
    have hval : UInt64.ofNat (BigEndian.decode (BigEndian.encode 8 xor.toNat)) = xor := by
      rw [decode_encode_of_lt (show xor.toNat < 256 ^ 8 from xor.toNat_lt), UInt64.ofNat_toNat]
    rw [decodeLoop_whole hcontrol hstored (by rw [hval, hback]), List.length_append,
      List.length_cons, length_encode]

/-- Codes behind any bytes decode to the values they were written for. -/
theorem decodeLoop_encodeLoop (front : Bytes) (prev : UInt64) (values : List F64) :
    decodeLoop (front ++ encodeLoop prev values) values.length front.length prev =
      some values := by
  induction values generalizing front prev with
  | nil => rfl
  | cons val rest ih =>
    rw [encodeLoop_cons, ← List.append_assoc, List.length_cons, decodeLoop_codeOf, ih]
    rfl

theorem decode_encode_values (values : List F64) (hlen : values.length < 2 ^ 32) :
    decode (encode values) = some values := by
  cases values with
  | nil => decide
  | cons first rest =>
    have hcount : BigEndian.decode (BigEndian.encode 4 (first :: rest).length) =
        (first :: rest).length := decode_encode_of_lt hlen
    have hfirst : UInt64.ofNat (BigEndian.decode (BigEndian.encode 8 first.bits.toNat)) =
        first.bits := by
      rw [decode_encode_of_lt (show first.bits.toNat < 256 ^ 8 from first.bits.toNat_lt),
        UInt64.ofNat_toNat]
    have hloop := decodeLoop_encodeLoop (BigEndian.encode 4 (first :: rest).length ++
      BigEndian.encode 8 first.bits.toNat) first.bits rest
    have h4 : slice (encode (first :: rest)) 0 4 =
        some (BigEndian.encode 4 (first :: rest).length) := by
      simpa [encode] using slice_append [] (BigEndian.encode 4 (first :: rest).length)
        (BigEndian.encode 8 first.bits.toNat ++ encodeLoop first.bits rest) 0 4 rfl (by simp)
    have h12 : slice (encode (first :: rest)) 4 12 =
        some (BigEndian.encode 8 first.bits.toNat) :=
      slice_append _ _ _ _ _ (by simp) (by simp)
    have hlen12 : ¬ (encode (first :: rest)).length < 12 := by
      simp only [encode, List.length_append, length_encode]
      omega
    rw [decode, if_neg hlen12, h4, h12]
    simp only [Option.bind_eq_bind, Option.bind_some, hcount, hfirst]
    have hpos : ¬ (first :: rest).length = 0 := by simp
    rw [if_neg hpos]
    have hstart : encode (first :: rest) = BigEndian.encode 4 (first :: rest).length ++
      BigEndian.encode 8 first.bits.toNat ++ encodeLoop first.bits rest := rfl
    rw [List.length_append, length_encode, length_encode, ← hstart] at hloop
    rw [List.length_cons, Nat.add_sub_cancel, hloop]
    rfl

/-- The XOR codes of any bit patterns give the same bit patterns back. -/
theorem gorilla_roundtrip (values : List F64) (hlen : values.length < 2 ^ 32) :
    decode (encode values) = some values := decode_encode_values values hlen

/-- One, minus zero, a NaN with a payload and infinity. -/
theorem gorilla_roundtrip_special_values :
    decode (encode [⟨0x3FF0000000000000⟩, ⟨0x8000000000000000⟩, ⟨0x7FF8000000000001⟩,
        ⟨0x7FF0000000000000⟩]) =
      some [⟨0x3FF0000000000000⟩, ⟨0x8000000000000000⟩, ⟨0x7FF8000000000001⟩,
        ⟨0x7FF0000000000000⟩] :=
  gorilla_roundtrip _ (by decide)

end Gorilla

end Graphite

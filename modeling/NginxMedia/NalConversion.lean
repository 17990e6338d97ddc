import NginxMedia.AnnexB
import NginxMedia.LengthPrefixed
import NginxMedia.RtmpPublisher

/-! The two framings of NAL units and what converts one into the other: the iterator over Annex B
streams, and the length-prefixed units of RTMP. -/
namespace NalConversion

open MediaTypes MediaCodec ByteString RtmpPublisher AnnexB LengthPrefixed

variable {size capacity : ℕ}

def iterNext (left : List UInt8) : Option (List UInt8 × List UInt8) :=
  match _hsc : startCode left with
  | none => none
  | some (o, n) =>
    let start := left.drop (o + n)
    let nal := trimZeros (start.take (gap start))
    if nal = [] then iterNext (start.drop (gap start)) else some (nal, start.drop (gap start))
termination_by left.length
decreasing_by
  obtain ⟨h3, hle⟩ := startCode_size _hsc
  rw [List.length_drop, List.length_drop]
  omega

/-- The calls of the iterator until it hands out nothing more. -/
inductive Iterates : List UInt8 → List (List UInt8) → Prop where
  | done {left} : iterNext left = none → Iterates left []
  | next {left nal rest units} : iterNext left = some (nal, rest) → Iterates rest units →
      Iterates left (nal :: units)

theorem iterNext_none {left : List UInt8} (h : startCode left = none) : iterNext left = none := by
  rw [iterNext]
  split
  · rfl
  · next hsc => simp [h] at hsc

theorem iterNext_some {left : List UInt8} {o n : ℕ} (h : startCode left = some (o, n)) : iterNext left =
    if trimZeros ((left.drop (o + n)).take (gap (left.drop (o + n)))) = [] then
      iterNext ((left.drop (o + n)).drop (gap (left.drop (o + n))))
    else some (trimZeros ((left.drop (o + n)).take (gap (left.drop (o + n)))),
      (left.drop (o + n)).drop (gap (left.drop (o + n)))) := by
  conv_lhs => rw [iterNext]
  split
  · next hsc => simp [h] at hsc
  · next o' n' hsc =>
    obtain ⟨rfl, rfl⟩ := Prod.mk.inj (Option.some.inj (h.symm.trans hsc))
    rfl

theorem iterNext_nals (left : List UInt8) :
    (iterNext left = none ∧ nals left = []) ∨
      ∃ nal rest, iterNext left = some (nal, rest) ∧ nals left = nal :: nals rest ∧
        rest.length < left.length := by
  induction left using nals.induct with
  | case1 left hsc => exact Or.inl ⟨iterNext_none hsc, nals_none hsc⟩
  | case2 left o n hsc start size nal hnil ih =>
    have hnil' : trimZeros ((left.drop (o + n)).take (gap (left.drop (o + n)))) = [] := hnil
    rw [iterNext_some hsc, nals_some hsc, if_pos hnil', if_pos hnil']
    rcases ih with hdone | ⟨nal, rest, hnext, hnals, hlength⟩
    · exact Or.inl hdone
    · refine Or.inr ⟨nal, rest, hnext, hnals, ?_⟩
      rw [List.length_drop, List.length_drop] at hlength
      omega
  | case3 left o n hsc start size nal hne ih =>
    have hne' : trimZeros ((left.drop (o + n)).take (gap (left.drop (o + n)))) ≠ [] := hne
    obtain ⟨h3, hle⟩ := startCode_size hsc
    refine Or.inr ⟨_, _, by rw [iterNext_some hsc, if_neg hne'], by
      rw [nals_some hsc, if_neg hne'], ?_⟩
    rw [List.length_drop, List.length_drop]
    omega

theorem iterates_nals (left : List UInt8) : Iterates left (nals left) := by
  induction hlength : left.length using Nat.strong_induction_on generalizing left with
  | _ length ih =>
    rcases iterNext_nals left with ⟨hnext, hnals⟩ | ⟨nal, rest, hnext, hnals, hshorter⟩
    · rw [hnals]
      exact .done hnext
    · rw [hnals]
      exact .next hnext (ih rest.length (hlength ▸ hshorter) rest rfl)

def avccLoop (size capacity : ℕ) : List (List UInt8) → List UInt8 → Option Payload
  | [], dst => if dst = [] then none else some dst
  | nal :: units, dst =>
    if dst.length + size + nal.length > capacity then none
    else avccLoop size capacity units (dst ++ bigEndian size nal.length ++ nal)

def payloadToAvcc (src : List UInt8) (size capacity : ℕ) : Option Payload :=
  if size < 1 ∨ size > 4 then none else avccLoop size capacity (nals src) []

theorem avccLoop_eq (hsize : 0 < size) (units : List (List UInt8)) (dst : List UInt8)
    (hdst : dst.length ≤ capacity) : avccLoop size capacity units dst =
      if dst ++ join size units ≠ [] ∧ (dst ++ join size units).length ≤ capacity then
        some (dst ++ join size units)
      else none := by
  induction units generalizing dst with
  | nil =>
    rw [avccLoop, join_nil, List.append_nil]
    by_cases hnil : dst = []
    · rw [if_pos hnil, if_neg fun h => h.1 hnil]
    · rw [if_neg hnil, if_pos ⟨hnil, hdst⟩]
  | cons nal units ih =>
    have hne : dst ++ join size (nal :: units) ≠ [] := by
      refine List.ne_nil_of_length_pos ?_
      rw [join_cons, List.length_append, List.length_append, length_bigEndian]
      omega
    have htotal : (dst ++ join size (nal :: units)).length =
        dst.length + size + nal.length + (join size units).length := by
      rw [join_cons]
      simp only [List.length_append, length_bigEndian]
      omega
    rw [avccLoop]
    by_cases hover : dst.length + size + nal.length > capacity
    · rw [if_pos hover, if_neg fun h => by omega]
    · have hnext : (dst ++ bigEndian size nal.length ++ nal).length ≤ capacity := by
        simp only [List.length_append, length_bigEndian]
        omega
      rw [if_neg hover, ih _ hnext, join_cons]
      simp only [List.append_assoc]

theorem payloadToAvcc_eq (hsize : 0 < size ∧ size ≤ 4) (src : List UInt8) (capacity : ℕ) :
    payloadToAvcc src size capacity =
      if nals src ≠ [] ∧ (join size (nals src)).length ≤ capacity then
        some (join size (nals src))
      else none := by
  have hempty : join size (nals src) ≠ [] ↔ nals src ≠ [] := by
    constructor
    · rintro h hnil
      rw [hnil, join_nil] at h
      exact h rfl
    · intro h
      obtain ⟨nal, units, hcons⟩ := List.exists_cons_of_ne_nil h
      refine List.ne_nil_of_length_pos ?_
      rw [hcons, join_cons, List.length_append, length_bigEndian]
      omega
  rw [payloadToAvcc, if_neg (by omega), avccLoop_eq hsize.1 _ _ (Nat.zero_le _), List.nil_append]
  simp only [hempty]

theorem nalLength_bigEndian {n : ℕ} (hn : n < 256 ^ size) (front behind : List UInt8) :
    nalLength (front ++ (bigEndian size n ++ behind)) front.length size = n := by
  induction size generalizing n behind with
  | zero =>
    rw [Nat.pow_zero] at hn
    rw [nalLength]
    omega
  | succ size ih =>
    rw [Nat.pow_succ] at hn
    have hhigh : n / 256 < 256 ^ size := by omega
    have hbyte : byteAt (front ++ (bigEndian size (n / 256) ++ ([low n] ++ behind)))
        (front.length + size) = n % 256 := by
      rw [byteAt_add rfl]
      have := @byteAt_add (bigEndian size (n / 256)) size (length_bigEndian _ _)
        ([low n] ++ behind) 0
      rw [Nat.add_zero] at this
      rw [this, List.singleton_append, byteAt_zero, low_toNat]
    rw [nalLength, bigEndian, List.append_assoc, ih hhigh, hbyte]
    omega

theorem annexbLoop_eq (hsize : 0 < size) (units : List (List UInt8))
    (hunits : ∀ nal ∈ units, nal ≠ [] ∧ nal.length < 256 ^ size) (front dst : List UInt8)
    (hdst : dst.length ≤ capacity) :
    annexbLoop (front ++ join size units) size capacity front.length dst =
      if dst ++ annexB units ≠ [] ∧ (dst ++ annexB units).length ≤ capacity then
        some (dst ++ annexB units)
      else none := by
  induction units generalizing front dst with
  | nil =>
    rw [annexbLoop, join_nil, List.append_nil, if_neg (by omega), annexB_nil, List.append_nil]
    by_cases hnil : dst = []
    · rw [if_pos (Or.inr hnil), if_neg fun h => h.1 hnil]
    · rw [if_neg (by simp [hnil]), if_pos ⟨hnil, hdst⟩]
  | cons nal units ih =>
    obtain ⟨hne, hfits⟩ := hunits nal List.mem_cons_self
    have hpos := List.length_pos_iff.mpr hne
    have hrest := fun other hother => hunits other (List.mem_cons_of_mem _ hother)
    have hlength : (front ++ join size (nal :: units)).length =
        front.length + size + nal.length + (join size units).length := by
      rw [join_cons]
      simp only [List.length_append, length_bigEndian]
      omega
    have hlen : nalLength (front ++ join size (nal :: units)) front.length size = nal.length := by
      rw [join_cons]
      exact nalLength_bigEndian hfits _ _
    have hsplit : front ++ join size (nal :: units) =
        (front ++ bigEndian size nal.length ++ nal) ++ join size units := by
      rw [join_cons]
      simp only [List.append_assoc]
    have hslice : RtmpConfig.slice (front ++ join size (nal :: units)) (front.length + size)
        nal.length = nal := by
      rw [RtmpConfig.slice, join_cons, ← List.append_assoc,
        List.drop_left' (by rw [List.length_append, length_bigEndian]), List.take_left]
    have hfront : (front ++ bigEndian size nal.length ++ nal).length =
        front.length + size + nal.length := by
      simp only [List.length_append, length_bigEndian]
    have htotal : (dst ++ annexB (nal :: units)).length =
        dst.length + 4 + nal.length + (annexB units).length := by
      rw [annexB_cons]
      simp only [List.length_append, List.length_cons]
      omega
    rw [annexbLoop, if_pos (by omega)]
    dsimp only
    rw [hlen, if_neg (by omega)]
    by_cases hover : dst.length + 4 + nal.length > capacity
    · rw [if_pos hover, if_neg fun h => by omega]
    · have hnext : (dst ++ [0, 0, 0, 1] ++ nal).length ≤ capacity := by
        simp only [List.length_append, List.length_cons, List.length_nil]
        omega
      rw [if_neg hover, hslice, ← hfront, hsplit, ih hrest _ _ hnext, annexB_cons]
      simp only [List.append_assoc, List.cons_append, List.nil_append]

theorem payloadToAnnexb_join (hsize : 0 < size ∧ size ≤ 4) {units : List (List UInt8)}
    (hne : units ≠ []) (hunits : ∀ nal ∈ units, nal ≠ [] ∧ nal.length < 256 ^ size)
    (capacity : ℕ) : payloadToAnnexb (join size units) size capacity =
      if (annexB units).length ≤ capacity then some (annexB units) else none := by
  obtain ⟨nal, rest, rfl⟩ := List.exists_cons_of_ne_nil hne
  have hsome : annexB (nal :: rest) ≠ [] := by
    rw [annexB_cons]
    exact List.cons_ne_nil _ _
  have hloop := @annexbLoop_eq size capacity hsize.1 (nal :: rest) hunits [] [] (Nat.zero_le _)
  rw [List.nil_append, List.nil_append, List.length_nil] at hloop
  rw [payloadToAnnexb, if_neg (by omega), hloop]
  simp only [ne_eq, hsome, not_false_eq_true, true_and]

/-- What may stand between two start codes as it is. -/
structure Framable (nal : List UInt8) : Prop where
  nonempty : nal ≠ []
  unzeroed : ¬[0, 0, 0] <:+: nal
  uncoded : ¬[0, 0, 1] <:+: nal
  ended : nal.getLast? ≠ some 0

theorem startCode_uncoded {nal : List UInt8} (hzeroed : ¬[0, 0, 0] <:+: nal)
    (hcoded : ¬[0, 0, 1] <:+: nal) : startCode nal = none := by
  induction nal with
  | nil => rfl
  | cons x rest ih =>
    refine startCode_none.mpr ⟨?_, ih (fun h => hzeroed (h.trans (List.suffix_cons x rest).isInfix))
      (fun h => hcoded (h.trans (List.suffix_cons x rest).isInfix))⟩
    rintro ⟨more, he | he⟩
    · exact hcoded ⟨[], more, by rw [he]; rfl⟩
    · exact hzeroed ⟨[], 1 :: more, by rw [he]; rfl⟩

theorem Framable.whole {nal : List UInt8} (h : Framable nal) : Whole nal := by
  refine ⟨startCode_uncoded h.unzeroed h.uncoded, nal.dropLast, nal.getLast h.nonempty,
    (List.dropLast_concat_getLast h.nonempty).symm, fun hlast => h.ended ?_⟩
  rw [List.getLast?_eq_some_getLast h.nonempty, hlast]

/-- A list of units under its lengths, whatever the start codes it is put behind in between; and
no stream keeps the iterator going for ever. -/
theorem nal_framings (hsize : 0 < size ∧ size ≤ 4) (units : List (List UInt8)) (hne : units ≠ [])
    (hframable : ∀ nal ∈ units, Framable nal)
    (hlengths : ∀ nal ∈ units, nal.length < 256 ^ size) (capacity : ℕ) :
    (payloadToAnnexb (join size units) size capacity =
        if (annexB units).length ≤ capacity then some (annexB units) else none) ∧
      Iterates (annexB units) units ∧
      (∀ stream : List (Bool × List UInt8), stream.map Prod.snd = units →
        Iterates (mixed stream) units ∧
          payloadToAvcc (mixed stream) 4 capacity =
            if (join 4 units).length ≤ capacity then some (join 4 units) else none) ∧
      split 4 (join 4 units) = some units ∧
      ∀ bytes, ∃ found, Iterates bytes found := by
  have hstream : ∀ stream : List (Bool × List UInt8), stream.map Prod.snd = units →
      nals (mixed stream) = units := by
    intro stream hunits
    rw [nals_mixed, hunits]
    intro unit hunit
    exact (hframable _ (hunits ▸ List.mem_map_of_mem hunit)).whole
  have hwide : ∀ nal ∈ units, nal.length < 256 ^ 4 := fun nal hnal =>
    (hlengths nal hnal).trans_le (Nat.pow_le_pow_right (by decide) hsize.2)
  refine ⟨payloadToAnnexb_join hsize hne
    (fun nal hnal => ⟨(hframable nal hnal).nonempty, hlengths nal hnal⟩) capacity, ?_, ?_,
    split_join (by decide) hwide, fun bytes => ⟨_, iterates_nals bytes⟩⟩
  · have hiter := iterates_nals (annexB units)
    rwa [nals_annexB fun nal hnal => (hframable nal hnal).whole] at hiter
  · intro stream hunits
    have hiter := iterates_nals (mixed stream)
    rw [hstream stream hunits] at hiter
    refine ⟨hiter, ?_⟩
    rw [payloadToAvcc_eq (by decide), hstream stream hunits]
    simp only [ne_eq, hne, not_false_eq_true, true_and]

/-- A unit with zero bytes inside and one of two bytes. -/
def slices : List (List UInt8) := [[0x65, 0, 0, 2, 0x80], [0x41, 0x9A]]

theorem nal_framings_slices :
    payloadToAnnexb (join 2 slices) 2 15 =
        some [0, 0, 0, 1, 0x65, 0, 0, 2, 0x80, 0, 0, 0, 1, 0x41, 0x9A] ∧
      Iterates [0, 0, 1, 0x65, 0, 0, 2, 0x80, 0, 0, 0, 1, 0x41, 0x9A] slices ∧
      payloadToAvcc [0, 0, 1, 0x65, 0, 0, 2, 0x80, 0, 0, 0, 1, 0x41, 0x9A] 4 15 =
        some [0, 0, 0, 5, 0x65, 0, 0, 2, 0x80, 0, 0, 0, 2, 0x41, 0x9A] := by
  have hframable : ∀ nal ∈ slices, Framable nal := by
    intro nal hnal
    simp only [slices, List.mem_cons, List.not_mem_nil, or_false] at hnal
    rcases hnal with rfl | rfl <;> exact ⟨by decide, by decide, by decide, by decide⟩
  obtain ⟨hannexb, -, hstream, -, -⟩ := @nal_framings 2 (by decide) slices (by decide) hframable
    (by decide) 15
  obtain ⟨hiter, havcc⟩ := hstream [(true, [0x65, 0, 0, 2, 0x80]), (false, [0x41, 0x9A])] rfl
  exact ⟨hannexb, hiter, havcc⟩

end NalConversion

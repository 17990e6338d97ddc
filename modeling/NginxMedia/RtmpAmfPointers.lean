import NginxMedia.RtmpAmf

/-! The AMF0 reader as it walks its input: each byte is loaded at a pointer and each level of an
aggregate takes a frame of the stack. A load at or behind the end, a frame that is not there, or a
loop that does not end is a fault. The walk follows `readValue`, and what it consumes decides what
it reads. -/
namespace RtmpAmf

open MediaTypes ByteString

namespace Pointers

inductive Fault where
  | load
  | stack
  | endless
  deriving DecidableEq, Repr

abbrev Run := Except Fault

/-- `data[p]` -/
def load (text : List UInt8) (p : ℕ) : Run ℕ :=
  match text[p]? with
  | some c => .ok c.toNat
  | none => .error .load

def stringAt (text : List UInt8) (p n : ℕ) : Run Payload :=
  if p + n ≤ text.length then .ok ((text.drop p).take n) else .error .load

def loadWord (text : List UInt8) : ℕ → ℕ → ℕ → Run ℕ
  | 0, _, u => return u
  | n + 1, p, u => do loadWord text n (p + 1) (u * 256 + (← load text p))

def load16 (text : List UInt8) (p : ℕ) : Run ℕ := do
  return (← load text p) * 256 + (← load text (p + 1))

/-- The cases of the `switch` that hold no other values; nothing for another type. -/
def scalarAt (text : List UInt8) (p type : ℕ) (out : Value) : Run (Option Result) :=
  let len := text.length - p
  if type = typeNumber then
    if len < 9 then return some (.error .again)
    else do return some (.ok ({ out with type := type, number := ← loadWord text 8 (p + 1) 0 }, 9))
  else if type = typeBoolean then
    if len < 2 then return some (.error .again)
    else do
      return some (.ok ({ out with type := type, boolean := (← load text (p + 1)) ≠ 0 }, 2))
  else if type = typeString then
    if len < 3 then return some (.error .again)
    else do
      let slen ← load16 text (p + 1)
      if len < 3 + slen then return some (.error .again)
      else
        let string ← stringAt text (p + 3) slen
        return some (.ok ({ out with type := type, string := string }, 3 + slen))
  else if type = typeNull ∨ type = typeUndefined then
    return some (.ok ({ out with type := type }, 1))
  else return none

def endAt (text : List UInt8) (pos : ℕ) : Run Bool :=
  if pos + 3 ≤ text.length then do
    if (← load text pos) ≠ 0 then return false
    else if (← load text (pos + 1)) ≠ 0 then return false
    else return decide ((← load text (pos + 2)) = objectEnd)
  else return false

/-- The loop over the members of an aggregate that is not recorded. -/
def skipAt (read : ℕ → Value → Run Result) (text : List UInt8) :
    ℕ → ℕ → ℕ → Value → Run Result
  | 0, _, _, _ => .error .endless
  | fuel + 1, depth, pos, out =>
    if pos < text.length then do
      if ← endAt text pos then return .ok (out, pos + 3)
      else if pos + 2 > text.length then return .error .again
      else
        let nlen ← load16 text pos
        if pos + 2 + nlen > text.length then return .error .again
        else
          match ← read (pos + 2 + nlen) out with
          | .error rc => return .error rc
          | .ok (out, used) =>
            if depth + 1 > 1024 then return .error .error
            else skipAt read text fuel (depth + 1) (pos + 2 + nlen + used) out
    else return .ok (out, pos)

def recordAt (read : ℕ → Value → Run Result) (text : List UInt8) : ℕ → ℕ → Value → Run Result
  | 0, _, _ => .error .endless
  | fuel + 1, pos, out =>
    if pos ≥ text.length then return .error .again
    else do
      if ← endAt text pos then return .ok (out, pos + 3)
      else if pos + 2 > text.length then return .error .again
      else
        let nlen ← load16 text pos
        if pos + 2 + nlen ≥ text.length then return .error .again
        else
          match ← read (pos + 2 + nlen) Value.zero with
          | .error rc => return .error rc
          | .ok (member, used) =>
            recordAt read text fuel (pos + 2 + nlen + used)
              (out.record (← stringAt text (pos + 2) nlen) member)

def aggregateAt (read : ℕ → Value → Run Result) (text : List UInt8) (record : Bool)
    (p type : ℕ) (out : Value) : Run Result :=
  let out :=
    { out with type := if record = true ∨ type ≠ typeEcmaArray then type else typeObject }
  let head := if type = typeEcmaArray ∨ type = typeStrictArray then 5 else 1
  if text.length - p < head then return .error .again
  else do
    let members ← if record then recordAt read text (text.length + 1) (p + head) out
      else skipAt read text (text.length + 1) 0 (p + head) out
    match members with
    | .error rc => return .error rc
    | .ok (out, pos) => return .ok (out, pos - p)

def readAt (text : List UInt8) : ℕ → ℕ → Bool → ℕ → Value → Run Result
  | 0, _, _, _, _ => .error .stack
  | frames + 1, nesting, record, p, out =>
    if text.length - p < 1 then return .error .again
    else do
      let type ← load text p
      match ← scalarAt text p type out with
      | some result => return result
      | none =>
        if type = typeObject ∨ type = typeEcmaArray ∨ type = typeStrictArray then
          if nesting > maxDepth then return .error .error
          else aggregateAt (readAt text frames (nesting + 1) false) text record p type out
        else return .error .error

/-- `ngx_media_amf_read()`, on a stack with a frame for every level and one for a scalar. -/
def amfRead (text : List UInt8) : Run Result := readAt text (maxDepth + 1) 1 true 0 Value.zero

variable {text : List UInt8} {p n : ℕ}

theorem byteAt_drop (text : List UInt8) (p i : ℕ) :
    byteAt (text.drop p) i = byteAt text (p + i) := by
  rw [byteAt, byteAt, List.getD_eq_getElem?_getD, List.getElem?_drop, List.getD_eq_getElem?_getD]

theorem byteAt_head (text : List UInt8) (p : ℕ) : byteAt (text.drop p) 0 = byteAt text p := by
  rw [byteAt_drop, Nat.add_zero]

theorem load_ok (h : p < text.length) : load text p = .ok (byteAt text p) := by
  rw [load, byteAt, List.getElem?_eq_getElem h, List.getD_eq_getElem _ _ h]

theorem load16_ok (h : p + 2 ≤ text.length) : load16 text p = .ok (be16 (text.drop p) 0) := by
  rw [load16, load_ok (by omega), load_ok (by omega), be16, byteAt_drop, byteAt_drop]
  rfl

theorem loadWord_ok (h : p + 9 ≤ text.length) :
    loadWord text 8 (p + 1) 0 = .ok (be64 (text.drop p) 1) := by
  have hload : ∀ i, i < 9 → load text (p + i) = .ok (byteAt text (p + i)) := fun i hi =>
    load_ok (by omega)
  simp only [loadWord, Nat.add_assoc, Nat.reduceAdd, hload 1 (by omega), hload 2 (by omega),
    hload 3 (by omega), hload 4 (by omega), hload 5 (by omega), hload 6 (by omega),
    hload 7 (by omega), hload 8 (by omega), bind, Except.bind, pure, Except.pure]
  simp only [be64, be32, be24, byteAt_drop, Nat.reduceAdd, Except.ok.injEq]
  omega

theorem stringAt_ok (h : p + n ≤ text.length) :
    stringAt text p n = .ok ((text.drop p).take n) := if_pos h

theorem endAt_eq (text : List UInt8) (p : ℕ) :
    endAt text p = .ok (decide (AtEnd (text.drop p))) := by
  by_cases hlen : p + 3 ≤ text.length
  · rw [endAt, if_pos hlen, load_ok (by omega), load_ok (by omega), load_ok (by omega)]
    have hbytes : AtEnd (text.drop p) ↔ byteAt text p = 0 ∧ byteAt text (p + 1) = 0 ∧
        byteAt text (p + 2) = objectEnd := by
      rw [AtEnd, List.drop_eq_getElem_cons (i := p) (by omega),
        List.drop_eq_getElem_cons (i := p + 1) (by omega),
        List.drop_eq_getElem_cons (i := p + 1 + 1) (by omega)]
      have hbyte : ∀ i (hi : i < text.length), byteAt text i = text[i].toNat := fun i hi => by
        rw [byteAt, List.getD_eq_getElem _ _ hi]
      rw [hbyte p (by omega), hbyte (p + 1) (by omega), hbyte (p + 2) (by omega)]
      simp only [List.take_succ_cons, List.take_zero, List.cons.injEq, and_true,
        ← UInt8.toNat_inj, low_toNat]
      rfl
    simp only [bind, Except.bind, pure, Except.pure]
    by_cases h0 : byteAt text p = 0
    · by_cases h1 : byteAt text (p + 1) = 0
      · simp [hbytes, h0, h1]
      · simp [hbytes, h0, h1]
    · simp [hbytes, h0]
  · rw [endAt, if_neg hlen]
    have hnot : ¬AtEnd (text.drop p) := fun hend => by
      have := atEnd_length hend
      rw [List.length_drop] at this
      omega
    rw [decide_eq_false hnot]
    rfl

/-- What a reader says of the input from `base` on, with its pointer in place of a number. -/
def shift (base : ℕ) : Result → Result
  | .error rc => .error rc
  | .ok (out, n) => .ok (out, base + n)

variable {walk : ℕ → Value → Run Result} {read' : List UInt8 → Value → Result}

theorem skipAt_follows
    (hwalk : ∀ p ≤ text.length, ∀ out, walk p out = .ok (read' (text.drop p) out))
    (hread : Bounded read') {fuel rounds depth pos : ℕ} {out : Value} (hpos : pos ≤ text.length)
    (hfuel : text.length - pos < fuel) (hrounds : text.length - pos ≤ rounds) :
    skipAt walk text fuel depth pos out =
      .ok (shift pos (skipMembers read' rounds depth (text.drop pos) out)) := by
  induction fuel generalizing rounds depth pos out with
  | zero => exact absurd hfuel (Nat.not_lt_zero _)
  | succ fuel ih =>
    by_cases hlt : pos < text.length
    · obtain ⟨rounds, rfl⟩ : ∃ k, rounds = k + 1 := ⟨rounds - 1, by omega⟩
      have hne : text.drop pos ≠ [] := List.drop_eq_nil_iff.not.mpr (by omega)
      rw [skipAt, if_pos hlt, endAt_eq, skipMembers, if_neg hne]
      simp only [bind, Except.bind, decide_eq_true_eq]
      by_cases hend : AtEnd (text.drop pos)
      · rw [if_pos hend, if_pos hend]
        rfl
      rw [if_neg hend, if_neg hend, List.length_drop]
      by_cases htwo : pos + 2 > text.length
      · rw [if_pos htwo, if_pos (by omega)]
        rfl
      rw [if_neg htwo, if_neg (by omega), load16_ok (by omega)]
      dsimp only
      generalize be16 (text.drop pos) 0 = nlen
      by_cases hname : pos + 2 + nlen > text.length
      · rw [if_pos hname, if_pos (by omega)]
        rfl
      rw [if_neg hname, if_neg (by omega), hwalk _ (by omega), List.drop_drop, ← Nat.add_assoc]
      dsimp only
      cases hvalue : read' (text.drop (pos + 2 + nlen)) out with
      | error rc => rfl
      | ok result =>
        obtain ⟨out, used⟩ := result
        have hused := hread _ _ _ _ hvalue
        rw [List.length_drop] at hused
        dsimp only
        by_cases hdepth : depth + 1 > 1024
        · rw [if_pos hdepth, if_pos hdepth]
          rfl
        have hnext : text.length - (pos + 2 + nlen + used) ≤ rounds := by omega
        rw [if_neg hdepth, if_neg hdepth, ih (by omega) (by omega) hnext, List.drop_drop]
        have hsum : pos + (2 + nlen + used) = pos + 2 + nlen + used := by omega
        rw [hsum]
        cases skipMembers read' rounds (depth + 1) (text.drop (pos + 2 + nlen + used)) out with
        | error rc => rfl
        | ok result =>
          simp only [shift, Except.ok.injEq, Prod.mk.injEq, true_and]
          omega
    · have hnil : text.drop pos = [] := List.drop_eq_nil_iff.mpr (by omega)
      rw [skipAt, if_neg hlt, hnil]
      cases rounds with
      | zero => rfl
      | succ rounds => rfl

theorem recordAt_follows
    (hwalk : ∀ p ≤ text.length, ∀ out, walk p out = .ok (read' (text.drop p) out))
    (hread : Bounded read') {fuel rounds pos : ℕ} {out : Value} (hpos : pos ≤ text.length)
    (hfuel : text.length - pos < fuel) (hrounds : text.length - pos ≤ rounds) :
    recordAt walk text fuel pos out =
      .ok (shift pos (recordMembers read' rounds (text.drop pos) out)) := by
  induction fuel generalizing rounds pos out with
  | zero => exact absurd hfuel (Nat.not_lt_zero _)
  | succ fuel ih =>
    by_cases hge : pos ≥ text.length
    · have hnil : text.drop pos = [] := List.drop_eq_nil_iff.mpr hge
      rw [recordAt, if_pos hge, hnil]
      cases rounds with
      | zero => rfl
      | succ rounds => rfl
    · obtain ⟨rounds, rfl⟩ : ∃ k, rounds = k + 1 := ⟨rounds - 1, by omega⟩
      have hne : text.drop pos ≠ [] := List.drop_eq_nil_iff.not.mpr (by omega)
      rw [recordAt, if_neg hge, endAt_eq, recordMembers, if_neg hne]
      simp only [bind, Except.bind, decide_eq_true_eq]
      by_cases hend : AtEnd (text.drop pos)
      · rw [if_pos hend, if_pos hend]
        rfl
      rw [if_neg hend, if_neg hend, List.length_drop]
      by_cases htwo : pos + 2 > text.length
      · rw [if_pos htwo, if_pos (by omega)]
        rfl
      rw [if_neg htwo, if_neg (by omega), load16_ok (by omega)]
      dsimp only
      generalize be16 (text.drop pos) 0 = nlen
      by_cases hname : pos + 2 + nlen ≥ text.length
      · rw [if_pos hname, if_pos (by omega)]
        rfl
      rw [if_neg hname, if_neg (by omega), hwalk _ (by omega), List.drop_drop, ← Nat.add_assoc]
      dsimp only
      cases hvalue : read' (text.drop (pos + 2 + nlen)) Value.zero with
      | error rc => rfl
      | ok result =>
        obtain ⟨member, used⟩ := result
        have hused := hread _ _ _ _ hvalue
        rw [List.length_drop] at hused
        dsimp only
        have hnext : text.length - (pos + 2 + nlen + used) ≤ rounds := by omega
        rw [stringAt_ok (by omega)]
        dsimp only
        rw [ih (by omega) (by omega) hnext, List.drop_drop, List.drop_drop]
        have hsum : pos + (2 + nlen + used) = pos + 2 + nlen + used := by omega
        rw [hsum]
        cases recordMembers read' rounds (text.drop (pos + 2 + nlen + used))
          (out.record ((text.drop (pos + 2)).take nlen) member) with
        | error rc => rfl
        | ok result =>
          simp only [shift, Except.ok.injEq, Prod.mk.injEq, true_and]
          omega

theorem scalarAt_follows {out : Value} (hp : p < text.length) :
    scalarAt text p (byteAt text p) out = .ok (readScalar (text.drop p) out) := by
  unfold scalarAt readScalar
  dsimp only
  rw [byteAt_head, List.length_drop]
  generalize byteAt text p = type
  by_cases hnumber : type = typeNumber
  · rw [if_pos hnumber, if_pos hnumber]
    by_cases hlen : text.length - p < 9
    · rw [if_pos hlen, if_pos hlen]
      rfl
    · rw [if_neg hlen, if_neg hlen, loadWord_ok (by omega)]
      rfl
  rw [if_neg hnumber, if_neg hnumber]
  by_cases hboolean : type = typeBoolean
  · rw [if_pos hboolean, if_pos hboolean]
    by_cases hlen : text.length - p < 2
    · rw [if_pos hlen, if_pos hlen]
      rfl
    · rw [if_neg hlen, if_neg hlen, load_ok (by omega), byteAt_drop]
      rfl
  rw [if_neg hboolean, if_neg hboolean]
  by_cases hstring : type = typeString
  · rw [if_pos hstring, if_pos hstring]
    by_cases hlen : text.length - p < 3
    · rw [if_pos hlen, if_pos hlen]
      rfl
    · have hlength : be16 (text.drop (p + 1)) 0 = be16 (text.drop p) 1 := by
        rw [be16, be16, byteAt_drop, byteAt_drop, byteAt_drop, byteAt_drop]
      rw [if_neg hlen, if_neg hlen, load16_ok (by omega), hlength]
      simp only [bind, Except.bind]
      by_cases hrest : text.length - p < 3 + be16 (text.drop p) 1
      · rw [if_pos hrest, if_pos hrest]
        rfl
      · rw [if_neg hrest, if_neg hrest, stringAt_ok (by omega), List.drop_drop]
        rfl
  rw [if_neg hstring, if_neg hstring]
  by_cases hnull : type = typeNull ∨ type = typeUndefined
  · rw [if_pos hnull, if_pos hnull]
    rfl
  · rw [if_neg hnull, if_neg hnull]
    rfl

theorem aggregateAt_follows
    (hwalk : ∀ p ≤ text.length, ∀ out, walk p out = .ok (read' (text.drop p) out))
    (hread : Bounded read') (record : Bool) (out : Value) :
    aggregateAt walk text record p (byteAt text p) out =
      .ok (readAggregate read' record (text.drop p) out) := by
  unfold aggregateAt readAggregate
  dsimp only
  rw [byteAt_head, List.length_drop]
  generalize hhead : (if byteAt text p = typeEcmaArray ∨ byteAt text p = typeStrictArray then 5
    else 1) = head
  have hpos : 0 < head := by
    rw [← hhead]
    split_ifs <;> decide
  generalize (if record = true ∨ byteAt text p ≠ typeEcmaArray then byteAt text p
    else typeObject) = type
  by_cases hlen : text.length - p < head
  · rw [if_pos hlen, if_pos hlen]
    rfl
  rw [if_neg hlen, if_neg hlen, List.drop_drop]
  have hstart : p + head ≤ text.length := by omega
  have hfuel : text.length - (p + head) < text.length + 1 := by omega
  have hrounds : text.length - (p + head) ≤ text.length - p := by omega
  -- The loops give the pointer behind the aggregate, which began at `p`.
  have hback : ∀ r, (do
      match ← (.ok (shift (p + head) r) : Run Result) with
      | .error rc => return .error rc
      | .ok (out, pos) => return .ok (out, pos - p)) = (.ok (match r with
      | .error rc => .error rc
      | .ok (out, n) => .ok (out, head + n)) : Run Result) := by
    intro r
    cases r with
    | error rc => rfl
    | ok result =>
      have hsub : p + head + result.2 - p = head + result.2 := by omega
      simp only [bind, Except.bind, pure, Except.pure, shift, hsub]
  cases record with
  | true =>
    rw [if_pos rfl, if_pos rfl, recordAt_follows hwalk hread hstart hfuel hrounds]
    exact hback _
  | false =>
    rw [if_neg Bool.false_ne_true, if_neg Bool.false_ne_true,
      skipAt_follows hwalk hread hstart hfuel hrounds]
    exact hback _

theorem readAt_follows {frames nesting room : ℕ} (hframes : frames = room + 1)
    (hroom : nesting + room = maxDepth + 1) (record : Bool) (hp : p ≤ text.length) (out : Value) :
    readAt text frames nesting record p out =
      .ok (readValue room record (text.drop p) out) := by
  subst hframes
  induction room generalizing nesting record p out with
  | zero =>
    rw [readAt, readValue, readWith]
    by_cases hend : text.length - p < 1
    · rw [if_pos hend, if_pos (List.drop_eq_nil_iff.mpr (by omega))]
      rfl
    have hlt : p < text.length := by omega
    rw [if_neg hend, if_neg (List.drop_eq_nil_iff.not.mpr (by omega)), load_ok hlt]
    simp only [bind, Except.bind]
    rw [scalarAt_follows hlt, byteAt_head]
    dsimp only
    cases readScalar (text.drop p) out with
    | some result => rfl
    | none =>
      simp only [Nat.add_zero] at hroom ⊢
      rw [if_pos (by omega : nesting > maxDepth)]
      split_ifs <;> rfl
  | succ room ih =>
    rw [readAt, readValue, readWith]
    by_cases hend : text.length - p < 1
    · rw [if_pos hend, if_pos (List.drop_eq_nil_iff.mpr (by omega))]
      rfl
    have hlt : p < text.length := by omega
    rw [if_neg hend, if_neg (List.drop_eq_nil_iff.not.mpr (by omega)), load_ok hlt]
    simp only [bind, Except.bind]
    rw [scalarAt_follows hlt, byteAt_head]
    dsimp only
    cases readScalar (text.drop p) out with
    | some result => rfl
    | none =>
      dsimp only
      by_cases htype : byteAt text p = typeObject ∨ byteAt text p = typeEcmaArray ∨
          byteAt text p = typeStrictArray
      · rw [if_pos htype, if_pos htype, if_neg (by omega)]
        exact aggregateAt_follows (fun p hp out => ih (by omega) false hp out)
          (readValue_bounded room false) record out
      · rw [if_neg htype, if_neg htype]
        rfl

theorem amfRead_eq (text : List UInt8) : amfRead text = .ok (read text) :=
  readAt_follows rfl (by omega) true (Nat.zero_le _) Value.zero

end Pointers

/-- Two inputs that agree on the first `n` bytes. -/
def Same (n : ℕ) (data other : List UInt8) : Prop := data.take n = other.take n

variable {data rest other : List UInt8} {out v : Value} {n m k : ℕ}
  {read' : List UInt8 → Value → Result}

theorem Same.mono (h : Same n data other) (hm : m ≤ n) : Same m data other := by
  have htake := congrArg (List.take m) h
  rwa [List.take_take, List.take_take, Nat.min_eq_left hm] at htake

theorem Same.drop (h : Same n data other) (hm : k + m ≤ n) :
    Same m (data.drop k) (other.drop k) := by
  rw [Same, List.take_drop, List.take_drop, h.mono hm]

theorem Same.byteAt (h : Same n data other) {i : ℕ} (hi : i < n) :
    byteAt data i = byteAt other i := by
  have hget := congrArg (·[i]?) h
  simp only [List.getElem?_take_of_lt hi] at hget
  rw [ByteString.byteAt, ByteString.byteAt, List.getD_eq_getElem?_getD,
    List.getD_eq_getElem?_getD, hget]

theorem Same.be16 (h : Same n data other) {i : ℕ} (hi : i + 2 ≤ n) :
    be16 data i = be16 other i := by
  rw [RtmpAmf.be16, RtmpAmf.be16, h.byteAt (by omega), h.byteAt (by omega)]

theorem Same.length_le (h : Same n data other) (hn : n ≤ data.length) : n ≤ other.length := by
  have hlength := congrArg List.length h
  rw [List.length_take, List.length_take] at hlength
  omega

def Settled (read : List UInt8 → Value → Result) : Prop :=
  ∀ data other out v n, read data out = .ok (v, n) → n < data.length → Same n data other →
    read other out = .ok (v, n)

theorem readScalar_settled (hne : data ≠ []) (hread : readScalar data out = some (.ok (v, n)))
    (h : Same n data other) : readScalar other out = some (.ok (v, n)) := by
  obtain ⟨hpos, hle⟩ := readScalar_bounded hne hread rfl
  have hlen := h.length_le hle
  unfold readScalar at hread ⊢
  dsimp only at hread ⊢
  rw [← h.byteAt hpos]
  generalize byteAt data 0 = type at hread ⊢
  by_cases hnumber : type = typeNumber
  · rw [if_pos hnumber] at hread ⊢
    split at hread
    · cases hread
    · cases hread
      have hword : be64 data 1 = be64 other 1 := by
        simp only [be64, be32, be24, h.byteAt (by omega : 1 < 9), h.byteAt (by omega : 2 < 9),
          h.byteAt (by omega : 3 < 9), h.byteAt (by omega : 4 < 9), h.byteAt (by omega : 5 < 9),
          h.byteAt (by omega : 6 < 9), h.byteAt (by omega : 7 < 9), h.byteAt (by omega : 8 < 9)]
      rw [if_neg (by omega), hword]
  rw [if_neg hnumber] at hread ⊢
  by_cases hboolean : type = typeBoolean
  · rw [if_pos hboolean] at hread ⊢
    split at hread
    · cases hread
    · cases hread
      rw [if_neg (by omega), h.byteAt (by omega)]
  rw [if_neg hboolean] at hread ⊢
  by_cases hstring : type = typeString
  · rw [if_pos hstring] at hread ⊢
    split at hread
    · cases hread
    · split at hread
      · cases hread
      · cases hread
        rw [← h.be16 (by omega), if_neg (by omega), if_neg (by omega),
          h.drop (k := 3) (m := be16 data 1) (Nat.le_refl _)]
  rw [if_neg hstring] at hread ⊢
  by_cases hnull : type = typeNull ∨ type = typeUndefined
  · rw [if_pos hnull] at hread ⊢
    cases hread
    rfl
  · rw [if_neg hnull] at hread
    cases hread

theorem readScalar_none : readScalar data out = none ↔
    ¬(byteAt data 0 = typeNumber ∨ byteAt data 0 = typeBoolean ∨ byteAt data 0 = typeString ∨
      byteAt data 0 = typeNull ∨ byteAt data 0 = typeUndefined) := by
  unfold readScalar
  dsimp only
  generalize byteAt data 0 = type
  by_cases h0 : type = typeNumber
  · rw [if_pos h0]
    exact iff_of_false (Option.some_ne_none _) (not_not_intro (.inl h0))
  by_cases h1 : type = typeBoolean
  · rw [if_neg h0, if_pos h1]
    exact iff_of_false (Option.some_ne_none _) (not_not_intro (.inr (.inl h1)))
  by_cases h2 : type = typeString
  · rw [if_neg h0, if_neg h1, if_pos h2]
    exact iff_of_false (Option.some_ne_none _) (not_not_intro (.inr (.inr (.inl h2))))
  by_cases h3 : type = typeNull ∨ type = typeUndefined
  · rw [if_neg h0, if_neg h1, if_neg h2, if_pos h3]
    exact iff_of_false (Option.some_ne_none _) (not_not_intro (.inr (.inr (.inr h3))))
  · rw [if_neg h0, if_neg h1, if_neg h2, if_neg h3]
    simp [h0, h1, h2, h3]

theorem Same.atEnd (h : Same n data other) (hn : 3 ≤ n) : AtEnd data ↔ AtEnd other := by
  rw [AtEnd, AtEnd, h.mono hn]

theorem skipMembers_settled (hb : Bounded read') (hs : Settled read') {rounds depth : ℕ}
    (hrounds : rest.length ≤ rounds) (hread : skipMembers read' rounds depth rest out = .ok (v, n))
    (hn : n < rest.length) (h : Same n rest other) (rounds' : ℕ) (hrounds' : n ≤ rounds') :
    skipMembers read' rounds' depth other out = .ok (v, n) := by
  induction rounds generalizing depth rest other out n rounds' with
  | zero => omega
  | succ rounds ih =>
    have hlen := h.length_le (Nat.le_of_lt hn)
    have hne : rest ≠ [] := List.length_pos_iff.mp (by omega)
    rw [skipMembers, if_neg hne] at hread
    by_cases hend : AtEnd rest
    · rw [if_pos hend] at hread
      cases hread
      obtain ⟨rounds', rfl⟩ : ∃ r, rounds' = r + 1 := ⟨rounds' - 1, by omega⟩
      rw [skipMembers, if_neg (List.length_pos_iff.mp (by omega)),
        if_pos ((h.atEnd (Nat.le_refl _)).mp hend)]
    rw [if_neg hend] at hread
    split at hread
    · cases hread
    split at hread
    · cases hread
    cases hvalue : read' (rest.drop (2 + be16 rest 0)) out with
    | error rc =>
      rw [hvalue] at hread
      cases hread
    | ok result =>
      obtain ⟨next, used⟩ := result
      rw [hvalue] at hread
      dsimp only at hread
      split at hread
      · cases hread
      rename_i hdepth
      cases hmore : skipMembers read' rounds (depth + 1) (rest.drop (2 + be16 rest 0 + used))
        next with
      | error rc =>
        rw [hmore] at hread
        cases hread
      | ok result =>
        obtain ⟨last, more⟩ := result
        rw [hmore] at hread
        cases hread
        have hused := hb _ _ _ _ hvalue
        rw [List.length_drop] at hused
        obtain ⟨rounds', rfl⟩ : ∃ r, rounds' = r + 1 := ⟨rounds' - 1, by omega⟩
        have hname : be16 other 0 = be16 rest 0 := (h.be16 (by omega)).symm
        have hinner := hs _ _ _ _ _ hvalue (by rw [List.length_drop]; omega)
          (h.drop (k := 2 + be16 rest 0) (m := used) (by omega))
        have hothers := ih (by rw [List.length_drop]; omega) hmore
          (by rw [List.length_drop]; omega)
          (h.drop (k := 2 + be16 rest 0 + used) (m := more) (by omega))
          rounds' (by omega)
        rw [skipMembers, if_neg (List.length_pos_iff.mp (by omega)),
          if_neg ((h.atEnd (by omega)).not.mp hend), hname, if_neg (by omega), if_neg (by omega),
          hinner]
        dsimp only
        rw [if_neg hdepth, hothers]

theorem recordMembers_pos {rounds : ℕ}
    (hread : recordMembers read' rounds rest out = .ok (v, n)) : 0 < n := by
  cases rounds with
  | zero => cases hread
  | succ rounds =>
    rw [recordMembers] at hread
    split_ifs at hread
    · cases hread
      exact Nat.succ_pos _
    · split at hread
      · cases hread
      split at hread
      · cases hread
      · cases hread
        omega

theorem recordMembers_settled (hb : Bounded read') (hs : Settled read') {rounds : ℕ}
    (hread : recordMembers read' rounds rest out = .ok (v, n)) (h : Same n rest other)
    (rounds' : ℕ) (hrounds' : n ≤ rounds') :
    recordMembers read' rounds' other out = .ok (v, n) := by
  induction rounds generalizing rest other out n rounds' with
  | zero => cases hread
  | succ rounds ih =>
    have hlen := h.length_le (recordMembers_bounded hb _ hread)
    rw [recordMembers] at hread
    split at hread
    · cases hread
    by_cases hend : AtEnd rest
    · rw [if_pos hend] at hread
      cases hread
      obtain ⟨rounds', rfl⟩ : ∃ r, rounds' = r + 1 := ⟨rounds' - 1, by omega⟩
      rw [recordMembers, if_neg (List.length_pos_iff.mp (by omega)),
        if_pos ((h.atEnd (Nat.le_refl _)).mp hend)]
    rw [if_neg hend] at hread
    split at hread
    · cases hread
    split at hread
    · cases hread
    cases hvalue : read' (rest.drop (2 + be16 rest 0)) Value.zero with
    | error rc =>
      rw [hvalue] at hread
      cases hread
    | ok result =>
      obtain ⟨member, used⟩ := result
      rw [hvalue] at hread
      dsimp only at hread
      cases hmore : recordMembers read' rounds (rest.drop (2 + be16 rest 0 + used))
        (out.record ((rest.drop 2).take (be16 rest 0)) member) with
      | error rc =>
        rw [hmore] at hread
        cases hread
      | ok result =>
        obtain ⟨last, more⟩ := result
        rw [hmore] at hread
        cases hread
        have hused := hb _ _ _ _ hvalue
        have hmembers := recordMembers_bounded hb _ hmore
        have hpos := recordMembers_pos hmore
        rw [List.length_drop] at hused hmembers
        obtain ⟨rounds', rfl⟩ : ∃ r, rounds' = r + 1 := ⟨rounds' - 1, by omega⟩
        have hname : be16 other 0 = be16 rest 0 := (h.be16 (by omega)).symm
        have hinner := hs _ _ _ _ _ hvalue (by rw [List.length_drop]; omega)
          (h.drop (k := 2 + be16 rest 0) (m := used) (by omega))
        have hothers := ih hmore
          (h.drop (k := 2 + be16 rest 0 + used) (m := more) (by omega))
          rounds' (by omega)
        have hcopy := h.drop (k := 2) (m := be16 rest 0) (by omega)
        rw [recordMembers, if_neg (List.length_pos_iff.mp (by omega)),
          if_neg ((h.atEnd (by omega)).not.mp hend), hname, if_neg (by omega), if_neg (by omega),
          hinner]
        dsimp only
        rw [← hcopy, hothers]

theorem readAggregate_settled (hb : Bounded read') (hs : Settled read') {record : Bool}
    (hread : readAggregate read' record data out = .ok (v, n))
    (hn : record = false → n < data.length) (h : Same n data other) :
    readAggregate read' record other out = .ok (v, n) := by
  obtain ⟨hpos, hle⟩ := readAggregate_bounded hb record hread
  have hlen := h.length_le hle
  unfold readAggregate at hread ⊢
  dsimp only at hread ⊢
  rw [← h.byteAt hpos]
  generalize (if byteAt data 0 = typeEcmaArray ∨ byteAt data 0 = typeStrictArray then 5
    else 1) = head at hread ⊢
  generalize (if record = true ∨ byteAt data 0 ≠ typeEcmaArray then byteAt data 0
    else typeObject) = type at hread ⊢
  by_cases hshort : data.length < head
  · rw [if_pos hshort] at hread
    cases hread
  rw [if_neg hshort] at hread
  cases record with
  | true =>
    rw [if_pos rfl] at hread ⊢
    cases hmembers : recordMembers read' data.length (data.drop head) { out with type := type } with
    | error rc =>
      rw [hmembers] at hread
      cases hread
    | ok result =>
      obtain ⟨last, more⟩ := result
      rw [hmembers] at hread
      cases hread
      rw [if_neg (by omega), recordMembers_settled hb hs hmembers
        (h.drop (k := head) (m := more) (Nat.le_refl _)) _ (by omega)]
  | false =>
    have hn := hn rfl
    rw [if_neg Bool.false_ne_true] at hread ⊢
    cases hmembers : skipMembers read' data.length 0 (data.drop head) { out with type := type } with
    | error rc =>
      rw [hmembers] at hread
      cases hread
    | ok result =>
      obtain ⟨last, more⟩ := result
      rw [hmembers] at hread
      cases hread
      rw [if_neg (by omega), skipMembers_settled hb hs (by rw [List.length_drop]; omega) hmembers
        (by rw [List.length_drop]; omega) (h.drop (k := head) (m := more) (Nat.le_refl _)) _
        (by omega)]

theorem readWith_settled {inner : Option (List UInt8 → Value → Result)}
    (hinner : ∀ read' ∈ inner, Bounded read' ∧ Settled read') {record : Bool}
    (hread : readWith inner record data out = .ok (v, n))
    (hn : record = false → n < data.length) (h : Same n data other) :
    readWith inner record other out = .ok (v, n) := by
  obtain ⟨hpos, hle⟩ := readWith_bounded (fun read' hr => (hinner read' hr).1) record _ _ _ _ hread
  have hlen := h.length_le hle
  unfold readWith at hread ⊢
  by_cases hne : data = []
  · rw [if_pos hne] at hread
    cases hread
  rw [if_neg hne] at hread
  rw [if_neg (List.length_pos_iff.mp (by omega)), ← h.byteAt hpos]
  cases hscalar : readScalar data out with
  | some result =>
    rw [hscalar] at hread
    dsimp only at hread
    subst hread
    rw [readScalar_settled hne hscalar h]
  | none =>
    have hnone : readScalar other out = none := by
      rw [readScalar_none] at hscalar ⊢
      rwa [← h.byteAt hpos]
    rw [hscalar] at hread
    rw [hnone]
    dsimp only at hread ⊢
    split at hread
    · rename_i htype
      rw [if_pos htype]
      cases inner with
      | none => cases hread
      | some read' =>
        obtain ⟨hb, hs⟩ := hinner read' rfl
        exact readAggregate_settled hb hs hread hn h
    · cases hread

theorem readValue_settled {room : ℕ} {record : Bool}
    (hread : readValue room record data out = .ok (v, n))
    (hn : record = false → n < data.length) (h : Same n data other) :
    readValue room record other out = .ok (v, n) := by
  induction room generalizing record data other out v n with
  | zero =>
    exact readWith_settled (fun _ hr => absurd hr (Option.not_mem_none _)) hread hn h
  | succ room ih =>
    refine readWith_settled (fun read' hr => ?_) hread hn h
    rw [← Option.some.inj hr]
    exact ⟨readValue_bounded room false, fun _ _ _ _ _ hread hn h => ih hread (fun _ => hn) h⟩

theorem read_settled (hread : read data = .ok (v, n)) (h : Same n data other) :
    read other = .ok (v, n) :=
  readValue_settled hread (fun h => absurd h.symm Bool.false_ne_true) h

/-- Reading neither leaves its input nor needs a frame more than the depth allows. What it consumes
lies in the input, gives the same value at the front of any other, and is the least that does. -/
theorem amf_read_safe (text : List UInt8) :
    (∃ result, Pointers.amfRead text = .ok result) ∧
      ∀ value n, Pointers.amfRead text = .ok (.ok (value, n)) →
        n ≤ text.length ∧
        (∀ other, text.take n <+: other → Pointers.amfRead other = .ok (.ok (value, n))) ∧
        ∀ front, front <+: text.take n → front ≠ text.take n →
          ∀ value' m, Pointers.amfRead front ≠ .ok (.ok (value', m)) := by
  refine ⟨⟨read text, Pointers.amfRead_eq text⟩, fun value n hrun => ?_⟩
  rw [Pointers.amfRead_eq, Except.ok.injEq] at hrun
  have hle := (read_bounded hrun).2
  have hlength : (text.take n).length = n := List.length_take_of_le hle
  refine ⟨hle, fun other hother => ?_, fun front hfront hne value' m hshort => ?_⟩
  · have hsame : Same n text other := by
      have htake := List.prefix_iff_eq_take.mp hother
      rwa [hlength] at htake
    rw [Pointers.amfRead_eq, read_settled hrun hsame]
  · rw [Pointers.amfRead_eq, Except.ok.injEq] at hshort
    have hm := (read_bounded hshort).2
    have hfewer : front.length < n := by
      rw [← hlength]
      exact Nat.lt_of_le_of_ne hfront.length_le fun h => hne (hfront.eq_of_length h)
    -- The shorter reading would be one of the whole input as well.
    have hsame : Same m front text := by
      rw [Same, List.prefix_iff_eq_take.mp hfront, List.take_take, List.take_take]
      congr 1
      omega
    have hagain := read_settled hshort hsame
    rw [hrun] at hagain
    cases hagain
    omega

/-- An object with one member, whose value is null. -/
theorem amf_read_safe_object :
    Pointers.amfRead [3, 0, 1, 97, 5, 0, 0, 9, 42] =
        .ok (.ok (⟨3, 0, false, [], [⟨[97], 5, 0, false, []⟩]⟩, 8)) ∧
      Pointers.amfRead [3, 0, 1, 97, 5, 0, 0, 9] =
        .ok (.ok (⟨3, 0, false, [], [⟨[97], 5, 0, false, []⟩]⟩, 8)) := by
  have hread : Pointers.amfRead [3, 0, 1, 97, 5, 0, 0, 9, 42] =
      .ok (.ok (⟨3, 0, false, [], [⟨[97], 5, 0, false, []⟩]⟩, 8)) := by
    decide +kernel
  exact ⟨hread, ((amf_read_safe _).2 _ _ hread).2.1 _ (List.prefix_refl _)⟩

end RtmpAmf

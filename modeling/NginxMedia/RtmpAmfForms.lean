import NginxMedia.RtmpAmfPointers
import NginxMedia.RtmpAmfValues
import Mathlib.Data.List.Forall2

/-! What the AMF0 reader takes and what it records of it. It reads exactly the values whose members
all have names; a member that is an aggregate is read, value after value, into the record of the
member itself. -/
namespace RtmpAmf

open MediaTypes ByteString

def Kind.skipped : Kind → ℕ
  | .object | .ecmaArray _ => typeObject
  | .strictArray _ => typeStrictArray

mutual

def Amf.write : Amf → Value → Value
  | .number bits, out => { out with type := typeNumber, number := bits }
  | .boolean byte, out => { out with type := typeBoolean, boolean := byte.toNat ≠ 0 }
  | .string s, out => { out with type := typeString, string := s }
  | .null, out => { out with type := typeNull }
  | .undefined, out => { out with type := typeUndefined }
  | .members kind list, out => writeMembers list { out with type := kind.skipped }
  | .elements _, out => out

def writeMembers : List (Payload × Amf) → Value → Value
  | [], out => out
  | (_, v) :: rest, out => writeMembers rest (v.write out)

end

mutual

def Amf.Skippable : Amf → Prop
  | .number _ | .boolean _ | .string _ | .null | .undefined => True
  | .members _ list => list.length ≤ 1024 ∧ MembersSkippable list
  | .elements _ => False

def MembersSkippable : List (Payload × Amf) → Prop
  | [] => True
  | (_, v) :: rest => v.Skippable ∧ MembersSkippable rest

end

def recordAll (list : List (Payload × Amf)) (out : Value) : Value :=
  list.foldl (fun out x => out.record x.1 (x.2.write Value.zero)) out

variable {name : Payload} {t : List UInt8} {out : Value} {room : ℕ}

theorem nameLength (name t : List UInt8) (h : name.length < 2 ^ 16) :
    be16 (put16 name.length ++ (name ++ t)) 0 = name.length := by
  rw [be16_put16, Nat.mod_eq_of_lt h]

theorem behind_name (name t : List UInt8) :
    (put16 name.length ++ (name ++ t)).drop (2 + name.length) = t := by
  rw [← List.drop_drop]
  exact List.drop_left

theorem not_atEnd {v : Amf} (h : name.length < 2 ^ 16) :
    ¬AtEnd (put16 name.length ++ (name ++ (v.encode ++ t))) := by
  intro hend
  have htake := List.take_append_drop 3 (put16 name.length ++ (name ++ (v.encode ++ t)))
  rw [show List.take 3 (put16 name.length ++ (name ++ (v.encode ++ t))) = ending from hend] at htake
  exact member_not_ending h htake.symm

theorem member_length (name t : List UInt8) :
    (put16 name.length ++ (name ++ t)).length = 2 + name.length + t.length := by
  rw [List.length_append, List.length_append, put16_length, Nat.add_assoc]

theorem member_ne_nil (name t : List UInt8) : put16 name.length ++ (name ++ t) ≠ [] :=
  List.cons_ne_nil _ _

theorem readWith_scalar {inner : Option (List UInt8 → Value → Result)} {record : Bool}
    {data : List UInt8} {result : Result} (hne : data ≠ [])
    (h : readScalar data out = some result) : readWith inner record data out = result := by
  unfold readWith
  rw [if_neg hne, h]

theorem readScalar_number {bits : ℕ} (h : bits < 2 ^ 64) :
    readScalar ((Amf.number bits).encode ++ t) out =
      some (.ok ((Amf.number bits).write out, (Amf.number bits).encode.length)) := by
  have hword : be64 (low typeNumber :: (put64 bits ++ t)) 1 = bits := by
    have hbits := be64_put64 bits t
    rw [Nat.mod_eq_of_lt h] at hbits
    rw [be64, be32_succ, be32_succ]
    exact hbits
  rw [Amf.encode, List.cons_append]
  unfold readScalar
  dsimp only
  rw [byteAt_zero, if_pos (by decide), if_neg (by simp [put64_length]), hword]
  rfl

theorem readScalar_boolean {byte : UInt8} :
    readScalar ((Amf.boolean byte).encode ++ t) out =
      some (.ok ((Amf.boolean byte).write out, (Amf.boolean byte).encode.length)) := by
  rw [Amf.encode, List.cons_append, List.cons_append]
  unfold readScalar
  dsimp only
  rw [byteAt_zero, if_neg (by decide), if_pos (by decide), if_neg (by simp), byteAt_succ,
    byteAt_zero]
  rfl

theorem readScalar_string {s : Payload} (h : s.length < 2 ^ 16) :
    readScalar ((Amf.string s).encode ++ t) out =
      some (.ok ((Amf.string s).write out, (Amf.string s).encode.length)) := by
  have hlength : be16 (low typeString :: (put16 s.length ++ (s ++ t))) 1 = s.length := by
    rw [be16, byteAt_succ, byteAt_succ]
    exact nameLength s t h
  have htext : ((low typeString :: (put16 s.length ++ (s ++ t))).drop 3).take s.length = s :=
    List.take_left
  have htotal : (Amf.string s).encode.length = 3 + s.length := by
    rw [Amf.encode, List.length_cons, List.length_append, put16_length]
    omega
  rw [string_encode, htotal]
  unfold readScalar
  dsimp only
  rw [byteAt_zero, if_neg (by decide), if_neg (by decide), if_pos (by decide), hlength, htext,
    List.length_cons, member_length, if_neg (by omega), if_neg (by omega)]
  rfl

/-- The values without others in them. -/
def Amf.Scalar : Amf → Prop
  | .members _ _ | .elements _ => False
  | _ => True

theorem readScalar_encode {v : Amf} (hv : v.Scalar) (hfits : v.Fits) :
    readScalar (v.encode ++ t) out = some (.ok (v.write out, v.encode.length)) := by
  cases v with
  | number bits => exact readScalar_number hfits
  | boolean byte => exact readScalar_boolean
  | string s => exact readScalar_string hfits
  | null => rfl
  | undefined => rfl
  | members kind list => exact hv.elim
  | elements list => exact hv.elim

theorem encode_ne_nil (v : Amf) (t : List UInt8) : v.encode ++ t ≠ [] := by
  obtain ⟨rest, hv⟩ := v.encode_head
  rw [hv]
  exact List.cons_ne_nil _ _

theorem readValue_scalar (v : Amf) (hv : v.Scalar) (hfits : v.Fits) (room : ℕ) (record : Bool) :
    readValue room record (v.encode ++ t) out = .ok (v.write out, v.encode.length) := by
  cases room <;> exact readWith_scalar (encode_ne_nil v t) (readScalar_encode hv hfits)

theorem Kind.byteAt_head (kind : Kind) (rest : List UInt8) :
    byteAt (kind.head ++ rest) 0 = kind.type := by
  cases kind <;> rfl

theorem Kind.head_length (kind : Kind) :
    (if kind.type = typeEcmaArray ∨ kind.type = typeStrictArray then 5 else 1) =
      kind.head.length := by
  cases kind <;> rfl

theorem Kind.kept_type (kind : Kind) (record : Bool) :
    (if record = true ∨ kind.type ≠ typeEcmaArray then kind.type else typeObject) =
      if record then kind.type else kind.skipped := by
  cases kind <;> cases record <;> rfl

theorem readValue_members (kind : Kind) (rest : List UInt8) (record : Bool) :
    readValue (room + 1) record (kind.head ++ rest) out =
      match (if record then
        recordMembers (readValue room false) (kind.head.length + rest.length) rest
          { out with type := kind.type }
      else
        skipMembers (readValue room false) (kind.head.length + rest.length) 0 rest
          { out with type := kind.skipped }) with
      | .error rc => .error rc
      | .ok (out, n) => .ok (out, kind.head.length + n) := by
  have hne : kind.head ++ rest ≠ [] := by
    cases kind <;> exact List.cons_ne_nil _ _
  have hscalar : readScalar (kind.head ++ rest) out = none := by
    rw [readScalar_none, kind.byteAt_head]
    rintro (h | h | h | h | h) <;> exact Kind.type_ne (by decide) h.symm
  rw [readValue]
  unfold readWith
  rw [if_neg hne, hscalar]
  dsimp only
  rw [kind.byteAt_head, if_pos kind.type_mem]
  unfold readAggregate
  dsimp only
  rw [kind.byteAt_head, kind.head_length, kind.kept_type, List.length_append, List.drop_left,
    if_neg (by omega)]
  cases record <;> rfl

theorem Kind.head_pos (kind : Kind) : 0 < kind.head.length := by
  cases kind <;> exact Nat.succ_pos _

theorem members_length : ∀ list : List (Payload × Amf), list.length ≤ (encodeMembers list).length
  | [] => Nat.le_refl 0
  | (name, v) :: list => by
    have := members_length list
    rw [encodeMembers, List.length_cons, member_length, List.length_append]
    omega

theorem ending_length : ending.length = 3 := rfl

mutual

theorem readValue_encode : ∀ (v : Amf) {room : ℕ} (t : List UInt8) (out : Value),
    v.Fits → v.Skippable → v.depth ≤ room →
    readValue room false (v.encode ++ t) out = .ok (v.write out, v.encode.length)
  | .number bits, room, _, _, hf, _, _ => readValue_scalar (.number bits) trivial hf room false
  | .boolean byte, room, _, _, hf, _, _ => readValue_scalar (.boolean byte) trivial hf room false
  | .string text, room, _, _, hf, _, _ => readValue_scalar (.string text) trivial hf room false
  | .null, room, _, _, hf, _, _ => readValue_scalar .null trivial hf room false
  | .undefined, room, _, _, hf, _, _ => readValue_scalar .undefined trivial hf room false
  | .members kind list, room, t, out, hf, hs, hd => by
    obtain ⟨room, rfl⟩ : ∃ r, room = r + 1 := ⟨room - 1, by rw [Amf.depth] at hd; omega⟩
    rw [Amf.depth] at hd
    have hcount : 0 + list.length ≤ 1024 := by
      rw [Nat.zero_add]
      exact hs.1
    have hlong := members_length list
    have hhead := kind.head_pos
    rw [members_encode, readValue_members, if_neg Bool.false_ne_true,
      skipMembers_encode list t _ hf.2 hs.2 (by omega) hcount (by rw [List.length_append]; omega)]
    simp only [Except.ok.injEq, Prod.mk.injEq]
    refine ⟨rfl, ?_⟩
    rw [Amf.encode, List.length_append, List.length_append, ending_length]
  | .elements _, _, _, _, _, hs, _ => hs.elim

theorem skipMembers_encode : ∀ (list : List (Payload × Amf)) {room rounds depth : ℕ}
    (t : List UInt8) (out : Value), MembersFit list → MembersSkippable list →
    membersDepth list ≤ room → depth + list.length ≤ 1024 → list.length < rounds →
    skipMembers (readValue room false) rounds depth (encodeMembers list ++ (ending ++ t)) out =
      .ok (writeMembers list out, (encodeMembers list).length + 3)
  | [], room, rounds, depth, t, out, _, _, _, _, hr => by
    obtain ⟨rounds, rfl⟩ : ∃ r, rounds = r + 1 := ⟨rounds - 1, by omega⟩
    rw [skipMembers]
    rfl
  | (name, v) :: list, room, rounds, depth, t, out, hf, hs, hd, hc, hr => by
    obtain ⟨rounds, rfl⟩ : ∃ r, rounds = r + 1 := ⟨rounds - 1, by omega⟩
    rw [membersDepth] at hd
    rw [List.length_cons] at hc hr
    rw [encodeMembers_cons, skipMembers, if_neg (member_ne_nil name _), if_neg (not_atEnd hf.1),
      nameLength _ _ hf.1, member_length, if_neg (by omega), if_neg (by omega), behind_name,
      readValue_encode v _ out hf.2.1 hs.1 (by omega)]
    dsimp only
    rw [if_neg (by omega), ← List.drop_drop, behind_name, List.drop_left,
      skipMembers_encode list t _ hf.2.2 hs.2 (by omega) (by omega) (by omega)]
    simp only [Except.ok.injEq, Prod.mk.injEq]
    refine ⟨rfl, ?_⟩
    rw [encodeMembers, member_length, List.length_append]
    omega

end

theorem recordMembers_encode (list : List (Payload × Amf)) {rounds : ℕ} (t : List UInt8)
    (out : Value) (hf : MembersFit list) (hs : MembersSkippable list)
    (hd : membersDepth list ≤ room) (hr : list.length < rounds) :
    recordMembers (readValue room false) rounds (encodeMembers list ++ (ending ++ t)) out =
      .ok (recordAll list out, (encodeMembers list).length + 3) := by
  induction list generalizing rounds out with
  | nil =>
    obtain ⟨rounds, rfl⟩ : ∃ r, rounds = r + 1 := ⟨rounds - 1, by omega⟩
    rw [recordMembers]
    rfl
  | cons member list ih =>
    obtain ⟨name, v⟩ := member
    obtain ⟨rounds, rfl⟩ : ∃ r, rounds = r + 1 := ⟨rounds - 1, by omega⟩
    rw [membersDepth] at hd
    rw [List.length_cons] at hr
    have hvalue := List.length_pos_iff.mpr (encode_ne_nil v (encodeMembers list ++ (ending ++ t)))
    have hname : ((put16 name.length ++ (name ++ (v.encode ++
        (encodeMembers list ++ (ending ++ t))))).drop 2).take name.length = name :=
      List.take_left
    rw [encodeMembers_cons, recordMembers, if_neg (member_ne_nil name _), if_neg (not_atEnd hf.1),
      nameLength _ _ hf.1, member_length, if_neg (by omega), if_neg (by omega), behind_name, hname,
      readValue_encode v _ _ hf.2.1 hs.1 (by omega)]
    dsimp only
    have htotal : 2 + name.length + v.encode.length + ((encodeMembers list).length + 3) =
        (encodeMembers ((name, v) :: list)).length + 3 := by
      rw [encodeMembers, member_length, List.length_append]
      omega
    rw [← List.drop_drop, behind_name, List.drop_left, ih _ hf.2.2 hs.2 (by omega) (by omega)]
    dsimp only
    rw [htotal]
    rfl

theorem read_encode (kind : Kind) (list : List (Payload × Amf)) (t : List UInt8)
    (hf : MembersFit list) (hs : MembersSkippable list) (hd : membersDepth list < maxDepth) :
    read ((Amf.members kind list).encode ++ t) =
      .ok (recordAll list { Value.zero with type := kind.type },
        (Amf.members kind list).encode.length) := by
  have hlong := members_length list
  have hhead := kind.head_pos
  have hroom : maxDepth = 1023 + 1 := rfl
  rw [read, hroom, members_encode, readValue_members, if_pos rfl,
    recordMembers_encode list t _ hf hs (by omega) (by rw [List.length_append]; omega)]
  dsimp only
  rw [Amf.encode, List.length_append, List.length_append, ending_length]

variable {data rest : List UInt8} {v : Value} {n : ℕ}

theorem low_byte (c : UInt8) (high : ℕ) : low (high * 256 + c.toNat) = c := by
  rw [← UInt8.toNat_inj, low_toNat]
  have := c.toNat_lt
  omega

theorem put16_be16 (h : 2 ≤ data.length) : put16 (be16 data 0) = data.take 2 := by
  match data with
  | a :: b :: _ =>
    have hb := b.toNat_lt
    have hhigh : (a.toNat * 256 + b.toNat) / 256 = 0 * 256 + a.toNat := by omega
    simp only [put16, be16, byteAt_zero, byteAt_succ, List.take_succ_cons, List.take_zero]
    rw [hhigh, low_byte, low_byte]

theorem put32_be32 (h : 4 ≤ data.length) : put32 (be32 data 0) = data.take 4 := by
  match data with
  | a :: b :: c :: d :: _ =>
    have hvalue : ∀ rest, be32 (a :: b :: c :: d :: rest) 0 =
        ((a.toNat * 256 + b.toNat) * 256 + c.toNat) * 256 + d.toNat := fun rest => by
      simp only [be32, be24, byteAt_zero, byteAt_succ]
      omega
    have hb := b.toNat_lt
    have hc := c.toNat_lt
    have hd := d.toNat_lt
    rw [hvalue]
    have h1 : (((a.toNat * 256 + b.toNat) * 256 + c.toNat) * 256 + d.toNat) / 256 =
        (a.toNat * 256 + b.toNat) * 256 + c.toNat := by omega
    have h2 : (((a.toNat * 256 + b.toNat) * 256 + c.toNat) * 256 + d.toNat) / 65536 =
        a.toNat * 256 + b.toNat := by omega
    have h3 : (((a.toNat * 256 + b.toNat) * 256 + c.toNat) * 256 + d.toNat) / 16777216 =
        0 * 256 + a.toNat := by omega
    rw [put32, put24, h1, h2, h3, low_byte, low_byte, low_byte, low_byte]
    rfl

theorem put32_low (high n : ℕ) : put32 (high * 4294967296 + n) = put32 n := by
  have hlow : ∀ m k, m % 256 = k % 256 → low m = low k := fun m k h => by
    rw [← UInt8.toNat_inj, low_toNat, low_toNat, h]
  rw [put32, put32, put24, put24,
    hlow ((high * 4294967296 + n) / 16777216) (n / 16777216) (by omega),
    hlow ((high * 4294967296 + n) / 65536) (n / 65536) (by omega),
    hlow ((high * 4294967296 + n) / 256) (n / 256) (by omega),
    hlow (high * 4294967296 + n) n (by omega)]

theorem put64_be64 (h : 8 ≤ data.length) : put64 (be64 data 0) = data.take 8 := by
  have hlow : be32 data 4 = be32 (data.drop 4) 0 := by
    have hsplit := List.take_append_drop 4 data
    have hfour : (data.take 4).length = 4 := List.length_take_of_le (by omega)
    have hadd := be32_add hfour (data.drop 4) 0
    rwa [hsplit] at hadd
  have hbound := be32_lt (data.drop 4) 0
  have hdiv : (be32 data 0 * 4294967296 + be32 (data.drop 4) 0) / 4294967296 = be32 data 0 := by
    omega
  rw [put64, be64, hlow, hdiv, put32_low, put32_be32 (by omega),
    put32_be32 (by rw [List.length_drop]; omega), ← List.take_add]

theorem take_head {k m : ℕ} (hne : data ≠ []) (h : byteAt data 0 = k) :
    data.take (m + 1) = low k :: (data.drop 1).take m := by
  obtain ⟨c, rest, rfl⟩ := List.exists_cons_of_ne_nil hne
  have hc : low k = c := by
    rw [← h, byteAt_zero, ← UInt8.toNat_inj, low_toNat, Nat.mod_eq_of_lt c.toNat_lt]
  rw [hc]
  rfl

theorem be16_drop (data : List UInt8) (i : ℕ) : be16 data i = be16 (data.drop i) 0 := by
  rw [be16, be16, Pointers.byteAt_drop, Pointers.byteAt_drop]
  rfl

theorem be64_drop (data : List UInt8) (i : ℕ) : be64 data i = be64 (data.drop i) 0 := by
  simp only [be64, be32, be24, Pointers.byteAt_drop, Nat.zero_add, Nat.add_assoc, Nat.add_zero]

theorem be64_lt (data : List UInt8) (i : ℕ) : be64 data i < 2 ^ 64 := by
  have hhigh := be32_lt data i
  have hlow := be32_lt data (i + 4)
  unfold be64
  omega

theorem be16_lt (data : List UInt8) (i : ℕ) : be16 data i < 2 ^ 16 := by
  have hhigh := byteAt_lt data i
  have hlow := byteAt_lt data (i + 1)
  unfold be16
  omega

def Sound (room : ℕ) (read : List UInt8 → Value → Result) : Prop :=
  ∀ data out v n, read data out = .ok (v, n) → n < data.length →
    ∃ a : Amf, a.Fits ∧ a.Skippable ∧ a.depth ≤ room ∧ a.encode = data.take n ∧ v = a.write out

theorem readScalar_sound (hne : data ≠ []) (hread : readScalar data out = some (.ok (v, n))) :
    ∃ a : Amf, a.Fits ∧ a.Skippable ∧ a.depth = 0 ∧ a.encode = data.take n ∧ v = a.write out := by
  unfold readScalar at hread
  dsimp only at hread
  by_cases hnumber : byteAt data 0 = typeNumber
  · rw [if_pos hnumber] at hread
    split at hread
    · cases hread
    · cases hread
      refine ⟨.number (be64 data 1), be64_lt data 1, trivial, rfl, ?_, ?_⟩
      · rw [take_head hne hnumber, Amf.encode, be64_drop,
          put64_be64 (by rw [List.length_drop]; omega)]
      · rw [Amf.write, hnumber]
  rw [if_neg hnumber] at hread
  by_cases hboolean : byteAt data 0 = typeBoolean
  · rw [if_pos hboolean] at hread
    split at hread
    · cases hread
    · rename_i hlen
      cases hread
      obtain ⟨c, rest, hrest⟩ := List.exists_cons_of_length_pos
        (l := data.drop 1) (by rw [List.length_drop]; omega)
      have hbyte : byteAt data 1 = c.toNat := by
        rw [← byteAt_zero c rest, ← hrest, Pointers.byteAt_drop]
      refine ⟨.boolean c, trivial, trivial, rfl, ?_, ?_⟩
      · rw [take_head hne hboolean, Amf.encode, hrest]
        rfl
      · rw [Amf.write, hboolean, hbyte]
  rw [if_neg hboolean] at hread
  by_cases hstring : byteAt data 0 = typeString
  · rw [if_pos hstring] at hread
    split at hread
    · cases hread
    split at hread
    · cases hread
    · cases hread
      have hlength : ((data.drop 3).take (be16 data 1)).length = be16 data 1 :=
        List.length_take_of_le (by rw [List.length_drop]; omega)
      refine ⟨.string ((data.drop 3).take (be16 data 1)), ?_, trivial, rfl, ?_, ?_⟩
      · rw [Amf.Fits, hlength]
        exact be16_lt data 1
      · have hsum : 3 + be16 data 1 = 2 + be16 data 1 + 1 := by omega
        rw [hsum, take_head hne hstring, Amf.encode, hlength, List.take_add, List.drop_drop,
          ← put16_be16 (by rw [List.length_drop]; omega), ← be16_drop]
      · rw [Amf.write, hstring]
  rw [if_neg hstring] at hread
  by_cases hnull : byteAt data 0 = typeNull ∨ byteAt data 0 = typeUndefined
  · rw [if_pos hnull] at hread
    cases hread
    rcases hnull with hnull | hundefined
    · refine ⟨.null, trivial, trivial, rfl, ?_, ?_⟩
      · rw [take_head hne hnull]
        rfl
      · rw [Amf.write, hnull]
    · refine ⟨.undefined, trivial, trivial, rfl, ?_, ?_⟩
      · rw [take_head hne hundefined]
        rfl
      · rw [Amf.write, hundefined]
  · rw [if_neg hnull] at hread
    cases hread

theorem exists_kind (hne : data ≠ []) (htype : byteAt data 0 = typeObject ∨
    byteAt data 0 = typeEcmaArray ∨ byteAt data 0 = typeStrictArray)
    (hlen : ¬data.length <
      if byteAt data 0 = typeEcmaArray ∨ byteAt data 0 = typeStrictArray then 5 else 1) :
    ∃ kind : Kind, kind.Fits ∧ ∃ rest, data = kind.head ++ rest := by
  have hcount : ∀ k, byteAt data 0 = k → 5 ≤ data.length →
      data = low k :: (put32 (be32 (data.drop 1) 0) ++ data.drop 5) := fun k hk h => by
    have hhead := List.take_append_drop 5 data
    rw [take_head hne hk, ← put32_be32 (by rw [List.length_drop]; omega)] at hhead
    exact hhead.symm
  rcases htype with h | h | h
  · refine ⟨.object, trivial, data.drop 1, ?_⟩
    have hhead := List.take_append_drop 1 data
    rw [take_head hne h] at hhead
    exact hhead.symm
  · rw [if_pos (.inl h)] at hlen
    exact ⟨.ecmaArray _, be32_lt (data.drop 1) 0, data.drop 5, hcount _ h (by omega)⟩
  · rw [if_pos (.inr h)] at hlen
    exact ⟨.strictArray _, be32_lt (data.drop 1) 0, data.drop 5, hcount _ h (by omega)⟩

theorem take_member {a : Amf} {used more : ℕ} (hname : 2 + be16 data 0 ≤ data.length)
    (ha : a.encode = (data.drop (2 + be16 data 0)).take used) :
    data.take (2 + be16 data 0 + used + more) =
      put16 ((data.drop 2).take (be16 data 0)).length ++ ((data.drop 2).take (be16 data 0) ++
        (a.encode ++ (data.drop (2 + be16 data 0 + used)).take more)) := by
  have hlength : ((data.drop 2).take (be16 data 0)).length = be16 data 0 :=
    List.length_take_of_le (by rw [List.length_drop]; omega)
  rw [hlength, put16_be16 (by omega), ha, List.take_add, List.take_add, List.take_add,
    List.append_assoc, List.append_assoc]

theorem name_fits (hname : 2 + be16 data 0 ≤ data.length) :
    ((data.drop 2).take (be16 data 0)).length < 2 ^ 16 := by
  rw [List.length_take_of_le (by rw [List.length_drop]; omega)]
  exact be16_lt data 0

variable {read' : List UInt8 → Value → Result}

theorem skipMembers_sound (hb : Bounded read') (hs : Sound room read') {rounds depth : ℕ}
    (hrounds : rest.length ≤ rounds) (hread : skipMembers read' rounds depth rest out = .ok (v, n))
    (hn : n < rest.length) (hdepth : depth ≤ 1024) :
    ∃ list, MembersFit list ∧ MembersSkippable list ∧ membersDepth list ≤ room ∧
      depth + list.length ≤ 1024 ∧ encodeMembers list ++ ending = rest.take n ∧
      v = writeMembers list out := by
  induction rounds generalizing depth rest out n with
  | zero => omega
  | succ rounds ih =>
    rw [skipMembers, if_neg (List.length_pos_iff.mp (by omega))] at hread
    by_cases hend : AtEnd rest
    · rw [if_pos hend] at hread
      cases hread
      exact ⟨[], trivial, trivial, Nat.zero_le _, hdepth, hend.symm, rfl⟩
    rw [if_neg hend] at hread
    split at hread
    · cases hread
    split at hread
    · cases hread
    cases hvalue : read' (rest.drop (2 + be16 rest 0)) out with
    | error rc =>
      rw [hvalue] at hread
      cases hread
    | ok result =>
      obtain ⟨next, used⟩ := result
      rw [hvalue] at hread
      dsimp only at hread
      split at hread
      · cases hread
      cases hmore : skipMembers read' rounds (depth + 1) (rest.drop (2 + be16 rest 0 + used))
        next with
      | error rc =>
        rw [hmore] at hread
        cases hread
      | ok result =>
        obtain ⟨last, more⟩ := result
        rw [hmore] at hread
        cases hread
        have hused := hb _ _ _ _ hvalue
        rw [List.length_drop] at hused
        obtain ⟨a, hfits, hskip, hlevels, hcode, rfl⟩ := hs _ _ _ _ hvalue
          (by rw [List.length_drop]; omega)
        obtain ⟨list, hfits', hskip', hlevels', hcount, hcode', rfl⟩ := ih
          (by rw [List.length_drop]; omega) hmore (by rw [List.length_drop]; omega) (by omega)
        refine ⟨((rest.drop 2).take (be16 rest 0), a) :: list,
          ⟨name_fits (by omega), hfits, hfits'⟩, ⟨hskip, hskip'⟩,
          Nat.max_le.mpr ⟨hlevels, hlevels'⟩, ?_, ?_, rfl⟩
        · rw [List.length_cons]
          omega
        · rw [encodeMembers_cons, take_member (by omega) hcode, hcode']

theorem recordMembers_sound (hb : Bounded read') (hs : Sound room read') {rounds : ℕ}
    (hread : recordMembers read' rounds rest out = .ok (v, n)) :
    ∃ list, MembersFit list ∧ MembersSkippable list ∧ membersDepth list ≤ room ∧
      encodeMembers list ++ ending = rest.take n ∧ v = recordAll list out := by
  induction rounds generalizing rest out n with
  | zero => cases hread
  | succ rounds ih =>
    rw [recordMembers] at hread
    split at hread
    · cases hread
    by_cases hend : AtEnd rest
    · rw [if_pos hend] at hread
      cases hread
      exact ⟨[], trivial, trivial, Nat.zero_le _, hend.symm, rfl⟩
    rw [if_neg hend] at hread
    split at hread
    · cases hread
    split at hread
    · cases hread
    cases hvalue : read' (rest.drop (2 + be16 rest 0)) Value.zero with
    | error rc =>
      rw [hvalue] at hread
      cases hread
    | ok result =>
      obtain ⟨member, used⟩ := result
      rw [hvalue] at hread
      dsimp only at hread
      cases hmore : recordMembers read' rounds (rest.drop (2 + be16 rest 0 + used))
        (out.record ((rest.drop 2).take (be16 rest 0)) member) with
      | error rc =>
        rw [hmore] at hread
        cases hread
      | ok result =>
        obtain ⟨last, more⟩ := result
        rw [hmore] at hread
        cases hread
        have hmembers := recordMembers_bounded hb _ hmore
        have hpos := recordMembers_pos hmore
        have hused := hb _ _ _ _ hvalue
        rw [List.length_drop] at hmembers hused
        obtain ⟨a, hfits, hskip, hlevels, hcode, rfl⟩ := hs _ _ _ _ hvalue
          (by rw [List.length_drop]; omega)
        obtain ⟨list, hfits', hskip', hlevels', hcode', rfl⟩ := ih hmore
        refine ⟨((rest.drop 2).take (be16 rest 0), a) :: list,
          ⟨name_fits (by omega), hfits, hfits'⟩, ⟨hskip, hskip'⟩,
          Nat.max_le.mpr ⟨hlevels, hlevels'⟩, ?_, rfl⟩
        rw [encodeMembers_cons, take_member (by omega) hcode, hcode']

theorem readAggregate_kind {record : Bool} (hne : data ≠ [])
    (htype : byteAt data 0 = typeObject ∨ byteAt data 0 = typeEcmaArray ∨
      byteAt data 0 = typeStrictArray)
    (hread : readAggregate read' record data out = .ok (v, n)) :
    ∃ kind : Kind, kind.Fits ∧ ∃ rest, data = kind.head ++ rest := by
  apply exists_kind hne htype
  intro hshort
  unfold readAggregate at hread
  dsimp only at hread
  rw [if_pos hshort] at hread
  cases hread

theorem readValue_sound (room : ℕ) : Sound room (readValue room false) := by
  induction room with
  | zero =>
    intro data out v n hread hn
    rw [readValue] at hread
    unfold readWith at hread
    have hne : data ≠ [] := List.length_pos_iff.mp (by omega)
    rw [if_neg hne] at hread
    cases hscalar : readScalar data out with
    | some result =>
      rw [hscalar] at hread
      dsimp only at hread
      subst hread
      obtain ⟨a, hfits, hskip, hlevels, hcode⟩ := readScalar_sound hne hscalar
      exact ⟨a, hfits, hskip, Nat.le_of_eq hlevels, hcode⟩
    | none =>
      rw [hscalar] at hread
      dsimp only at hread
      split at hread <;> cases hread
  | succ room ih =>
    intro data out v n hread hn
    have hne : data ≠ [] := List.length_pos_iff.mp (by omega)
    have hwhole := hread
    rw [readValue] at hread
    unfold readWith at hread
    rw [if_neg hne] at hread
    cases hscalar : readScalar data out with
    | some result =>
      rw [hscalar] at hread
      dsimp only at hread
      subst hread
      obtain ⟨a, hfits, hskip, hlevels, hcode⟩ := readScalar_sound hne hscalar
      exact ⟨a, hfits, hskip, by omega, hcode⟩
    | none =>
      rw [hscalar] at hread
      dsimp only at hread
      split at hread
      · rename_i htype
        obtain ⟨kind, hkind, rest, rfl⟩ := readAggregate_kind hne htype hread
        rw [readValue_members, if_neg Bool.false_ne_true] at hwhole
        split at hwhole
        · cases hwhole
        · rename_i last more hmembers
          cases hwhole
          rw [List.length_append] at hn
          obtain ⟨list, hfits, hskip, hlevels, hcount, hcode, rfl⟩ :=
            skipMembers_sound (readValue_bounded room false) ih (by omega) hmembers (by omega)
              (Nat.zero_le _)
          refine ⟨.members kind list, ⟨hkind, hfits⟩, ⟨by omega, hskip⟩, ?_, ?_, rfl⟩
          · rw [Amf.depth]
            omega
          · rw [Amf.encode, hcode, List.take_length_add_append]
      · cases hread

theorem read_sound (htype : byteAt data 0 = typeObject ∨ byteAt data 0 = typeEcmaArray ∨
    byteAt data 0 = typeStrictArray) (hread : read data = .ok (v, n)) :
    ∃ kind list, (Amf.members kind list).Fits ∧ MembersSkippable list ∧
      membersDepth list < maxDepth ∧ (Amf.members kind list).encode = data.take n ∧
      v = recordAll list { Value.zero with type := kind.type } := by
  obtain ⟨hpos, hle⟩ := read_bounded hread
  have hne : data ≠ [] := List.length_pos_iff.mp (by omega)
  have hroom : maxDepth = 1023 + 1 := rfl
  rw [read, hroom] at hread
  have hwhole := hread
  have hscalar : readScalar data Value.zero = none := by
    rw [readScalar_none]
    simp only [typeObject, typeEcmaArray, typeStrictArray, typeNumber, typeBoolean, typeString,
      typeNull, typeUndefined] at htype ⊢
    omega
  rw [readValue] at hread
  unfold readWith at hread
  rw [if_neg hne, hscalar] at hread
  dsimp only at hread
  rw [if_pos htype] at hread
  obtain ⟨kind, hkind, rest, rfl⟩ := readAggregate_kind hne htype hread
  rw [readValue_members, if_pos rfl] at hwhole
  split at hwhole
  · cases hwhole
  · rename_i last more hmembers
    cases hwhole
    obtain ⟨list, hfits, hskip, hlevels, hcode, rfl⟩ :=
      recordMembers_sound (readValue_bounded 1023 false) (readValue_sound 1023) hmembers
    refine ⟨kind, list, ⟨hkind, hfits⟩, hskip, by omega, ?_, rfl⟩
    rw [Amf.encode, hcode, List.take_length_add_append]

def asMember (x : Payload × Amf) : Member :=
  let v := x.2.write Value.zero
  ⟨x.1, v.type, v.number, v.boolean, v.string⟩

theorem recordAll_members (list : List (Payload × Amf)) (out : Value)
    (h : out.members.length ≤ maxMembers) :
    (recordAll list out).members = (out.members ++ list.map asMember).take maxMembers := by
  induction list generalizing out with
  | nil => rw [List.map_nil, List.append_nil, List.take_of_length_le h, recordAll, List.foldl_nil]
  | cons x list ih =>
    have hcons : recordAll (x :: list) out =
        recordAll list (out.record x.1 (x.2.write Value.zero)) := rfl
    rw [hcons]
    by_cases hroom : out.members.length < maxMembers
    · have hrecord : (out.record x.1 (x.2.write Value.zero)).members =
          out.members ++ [asMember x] := by
        rw [Value.record, if_pos hroom]
        rfl
      rw [ih _ (by rw [hrecord, List.length_append]; exact hroom), hrecord, List.map_cons,
        List.append_assoc]
      rfl
    · have hfull : out.members.length = maxMembers := Nat.le_antisymm h (Nat.le_of_not_lt hroom)
      rw [Value.record, if_neg hroom, ih out h, ← hfull, List.take_left, List.take_left]

/-- An aggregate, and no scalar beside it. -/
def Member.Blank (m : Member) : Prop :=
  (m.type = typeObject ∨ m.type = typeEcmaArray ∨ m.type = typeStrictArray) ∧ m.number = 0 ∧
    m.boolean = false ∧ m.string = []

def Recorded (x : Payload × Amf) (m : Member) : Prop :=
  m.name = x.1 ∧
    match x.2 with
    | .number bits => m.type = typeNumber ∧ m.number = bits
    | .boolean byte => m.type = typeBoolean ∧ m.boolean = decide (byte.toNat ≠ 0)
    | .string s => m.type = typeString ∧ m.string = s
    | .null => m.type = typeNull
    | .undefined => m.type = typeUndefined
    | .members _ _ | .elements _ => m.Blank

def ReadsWell (kind : Kind) (list : List (Payload × Amf)) : Prop :=
  ∀ t, ∃ value, read ((Amf.members kind list).encode ++ t) =
      .ok (value, (Amf.members kind list).encode.length) ∧
    List.Forall₂ Recorded (list.take maxMembers) value.members

def Kept (kind : Kind) (list : List (Payload × Amf)) : Prop :=
  ∃ kind' list', (Amf.members kind' list').encode = (Amf.members kind list).encode ∧
    (Amf.members kind' list').Fits ∧ MembersSkippable list' ∧ membersDepth list' < maxDepth ∧
    List.Forall₂ Recorded (list.take maxMembers) ((list'.take maxMembers).map asMember)

theorem read_members (kind : Kind) (list : List (Payload × Amf)) :
    (recordAll list { Value.zero with type := kind.type }).members =
      (list.take maxMembers).map asMember := by
  rw [recordAll_members _ _ (Nat.zero_le _), List.map_take]
  rfl

theorem readsWell_iff (kind : Kind) (list : List (Payload × Amf)) :
    ReadsWell kind list ↔ Kept kind list := by
  constructor
  · intro h
    obtain ⟨value, hread, hrecorded⟩ := h []
    rw [List.append_nil] at hread
    have htype : byteAt (Amf.members kind list).encode 0 = kind.type := by
      rw [Amf.encode]
      exact kind.byteAt_head _
    have hmem := kind.type_mem
    rw [← htype] at hmem
    obtain ⟨kind', list', hfits, hskip, hlevels, hcode, rfl⟩ := read_sound hmem hread
    rw [List.take_length] at hcode
    rw [read_members] at hrecorded
    exact ⟨kind', list', hcode, hfits, hskip, hlevels, hrecorded⟩
  · rintro ⟨kind', list', hcode, hfits, hskip, hlevels, hrecorded⟩ t
    refine ⟨_, ?_, (read_members kind' list').symm ▸ hrecorded⟩
    rw [← hcode]
    exact read_encode kind' list' t hfits.2 hskip hlevels

mutual

theorem Amf.Skippable.named : ∀ {a : Amf}, a.Skippable → a.Named
  | .number _, _ | .boolean _, _ | .string _, _ | .null, _ | .undefined, _ => trivial
  | .members _ _, h => membersNamed_of_skippable h.2
  | .elements _, h => h.elim

theorem membersNamed_of_skippable : ∀ {list : List (Payload × Amf)}, MembersSkippable list →
    MembersNamed list
  | [], _ => trivial
  | (_, _) :: _, h => ⟨h.1.named, membersNamed_of_skippable h.2⟩

end

theorem recorded_asMember (x : Payload × Amf) :
    Recorded x (asMember x) ↔ x.2.Scalar ∨ (asMember x).Blank := by
  obtain ⟨name, v⟩ := x
  cases v with
  | members kind list => exact ⟨fun h => .inr h.2, fun h => ⟨rfl, h.resolve_left id⟩⟩
  | elements list => exact ⟨fun h => .inr h.2, fun h => ⟨rfl, h.resolve_left id⟩⟩
  | number bits => exact ⟨fun _ => .inl trivial, fun _ => ⟨rfl, rfl, rfl⟩⟩
  | boolean byte => exact ⟨fun _ => .inl trivial, fun _ => ⟨rfl, rfl, rfl⟩⟩
  | string s => exact ⟨fun _ => .inl trivial, fun _ => ⟨rfl, rfl, rfl⟩⟩
  | null => exact ⟨fun _ => .inl trivial, fun _ => ⟨rfl, rfl⟩⟩
  | undefined => exact ⟨fun _ => .inl trivial, fun _ => ⟨rfl, rfl⟩⟩

/-- An aggregate is read as it should be exactly if its bytes are those of named members that the
reader can skip. -/
theorem amf_members_recorded_iff (kind : Kind) (list : List (Payload × Amf))
    (hfits : (Amf.members kind list).Fits) (hdepth : (Amf.members kind list).depth ≤ maxDepth) :
    (ReadsWell kind list ↔ Kept kind list) ∧
      (MembersNamed list → (Kept kind list ↔ MembersSkippable list ∧
        ∀ x ∈ list.take maxMembers, x.2.Scalar ∨ (asMember x).Blank)) := by
  refine ⟨readsWell_iff kind list, fun hnamed => ⟨?_, ?_⟩⟩
  · rintro ⟨kind', list', hcode, hfits', hskip, -, hrecorded⟩
    have hsame := encode_front (.members kind' list') (.members kind list) (s := []) (t := [])
      hfits' hfits (membersNamed_of_skippable hskip) hnamed (by rw [hcode])
    cases hsame.1
    refine ⟨hskip, fun x hx => (recorded_asMember x).mp ?_⟩
    rw [List.forall₂_map_right_iff, List.forall₂_same] at hrecorded
    exact hrecorded x hx
  · rintro ⟨hskip, hblank⟩
    rw [Amf.depth] at hdepth
    refine ⟨kind, list, rfl, hfits, hskip, hdepth, ?_⟩
    rw [List.forall₂_map_right_iff, List.forall₂_same]
    exact fun x hx => (recorded_asMember x).mpr (hblank x hx)

def quietMembers : List (Payload × Amf) :=
  [([97], .string [108, 105, 118, 101]), ([98], .members .object [])]

theorem amf_members_recorded_quiet : ReadsWell .object quietMembers := by
  have hwell := amf_members_recorded_iff .object quietMembers
    ⟨trivial, by decide, (by decide : 4 < 2 ^ 16), by decide, ⟨trivial, trivial⟩, trivial⟩
    (by decide)
  refine hwell.1.mpr ((hwell.2 ⟨trivial, trivial, trivial⟩).mpr
    ⟨⟨trivial, ⟨by decide, trivial⟩, trivial⟩, fun x hx => ?_⟩)
  rcases List.mem_cons.mp hx with rfl | hx
  · exact .inl trivial
  · rw [List.mem_singleton.mp hx]
    exact .inr ⟨.inl rfl, rfl, rfl, rfl⟩

def nestedMembers : List (Payload × Amf) :=
  [([97], .members .object [([98], .number 0x4014000000000000)])]

theorem inner_number_recorded : ¬∀ kind list, (Amf.members kind list).Fits →
    (Amf.members kind list).depth ≤ maxDepth → ReadsWell kind list := by
  intro h
  obtain ⟨value, hread, hrecorded⟩ := h .object nestedMembers
    ⟨trivial, by decide, ⟨trivial, by decide, (by decide : 0x4014000000000000 < 2 ^ 64), trivial⟩,
      trivial⟩ (by decide) []
  have hnumber : read ((Amf.members .object nestedMembers).encode ++ []) =
      .ok (⟨3, 0, false, [], [⟨[97], 0, 0x4014000000000000, false, []⟩]⟩, 23) := by
    decide +kernel
  rw [hnumber] at hread
  cases hread
  cases hrecorded with
  | cons hmember _ => exact absurd hmember.2.1 (by decide)

end RtmpAmf

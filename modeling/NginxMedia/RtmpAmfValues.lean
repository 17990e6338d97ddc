import NginxMedia.RtmpAmf

/-! AMF0 values as trees and their encodings. An array of values without names comes in two
shapes: with its elements one behind the other, as the format has it, and with named members and
an end, as the reader takes it. -/
namespace RtmpAmf

open MediaTypes ByteString

/-- The aggregates with named members; an array announces how many there are, which binds
nobody. -/
inductive Kind where
  | object
  | ecmaArray (count : ℕ)
  | strictArray (count : ℕ)
  deriving DecidableEq, Repr

inductive Amf where
  | number (bits : ℕ)
  | boolean (byte : UInt8)
  | string (s : Payload)
  | null
  | undefined
  | members (kind : Kind) (list : List (Payload × Amf))
  | elements (list : List Amf)

def Kind.type : Kind → ℕ
  | .object => typeObject
  | .ecmaArray _ => typeEcmaArray
  | .strictArray _ => typeStrictArray

def Kind.head : Kind → List UInt8
  | .object => [low typeObject]
  | .ecmaArray count => low typeEcmaArray :: put32 count
  | .strictArray count => low typeStrictArray :: put32 count

/-- The empty name and the mark behind the last member. -/
def ending : List UInt8 := [0, 0, low objectEnd]

mutual

def Amf.encode : Amf → List UInt8
  | .number bits => low typeNumber :: put64 bits
  | .boolean byte => [low typeBoolean, byte]
  | .string s => low typeString :: (put16 s.length ++ s)
  | .null => [low typeNull]
  | .undefined => [low typeUndefined]
  | .members kind list => kind.head ++ (encodeMembers list ++ ending)
  | .elements list => low typeStrictArray :: (put32 list.length ++ encodeElements list)

def encodeMembers : List (Payload × Amf) → List UInt8
  | [] => []
  | (name, v) :: rest => put16 name.length ++ (name ++ (v.encode ++ encodeMembers rest))

def encodeElements : List Amf → List UInt8
  | [] => []
  | v :: rest => v.encode ++ encodeElements rest

end

def Kind.Fits : Kind → Prop
  | .object => True
  | .ecmaArray count | .strictArray count => count < 2 ^ 32

mutual

def Amf.Fits : Amf → Prop
  | .number bits => bits < 2 ^ 64
  | .boolean _ | .null | .undefined => True
  | .string s => s.length < 2 ^ 16
  | .members kind list => kind.Fits ∧ MembersFit list
  | .elements list => list.length < 2 ^ 32 ∧ ElementsFit list

def MembersFit : List (Payload × Amf) → Prop
  | [] => True
  | (name, v) :: rest => name.length < 2 ^ 16 ∧ v.Fits ∧ MembersFit rest

def ElementsFit : List Amf → Prop
  | [] => True
  | v :: rest => v.Fits ∧ ElementsFit rest

end

mutual

/-- The levels of aggregates. -/
def Amf.depth : Amf → ℕ
  | .number _ | .boolean _ | .string _ | .null | .undefined => 0
  | .members _ list => membersDepth list + 1
  | .elements list => elementsDepth list + 1

def membersDepth : List (Payload × Amf) → ℕ
  | [] => 0
  | (_, v) :: rest => max v.depth (membersDepth rest)

def elementsDepth : List Amf → ℕ
  | [] => 0
  | v :: rest => max v.depth (elementsDepth rest)

end

mutual

def Amf.Named : Amf → Prop
  | .number _ | .boolean _ | .string _ | .null | .undefined => True
  | .members _ list => MembersNamed list
  | .elements _ => False

def MembersNamed : List (Payload × Amf) → Prop
  | [] => True
  | (_, v) :: rest => v.Named ∧ MembersNamed rest

end

theorem put16_length (n : ℕ) : (put16 n).length = 2 := rfl

theorem put64_length (n : ℕ) : (put64 n).length = 8 := rfl

theorem be16_put16 (n : ℕ) (rest : List UInt8) : be16 (put16 n ++ rest) 0 = n % 2 ^ 16 := by
  have hbytes : be16 (put16 n ++ rest) 0 = n / 256 % 256 * 256 + n % 256 := by
    simp [be16, put16]
  rw [hbytes]
  omega

theorem be64_put64 (n : ℕ) (rest : List UInt8) : be64 (put64 n ++ rest) 0 = n % 2 ^ 64 := by
  have hhigh : be32 (put64 n ++ rest) 0 = n / 4294967296 % 4294967296 := by
    rw [put64, List.append_assoc, be32_put32]
  have hlow : be32 (put64 n ++ rest) 4 = n % 4294967296 := by
    rw [put64, List.append_assoc]
    exact (be32_add (put32_length _) _ 0).trans (be32_put32 _ _)
  rw [be64, hhigh, hlow]
  omega

theorem front_of_width {put : ℕ → List UInt8} (get : List UInt8 → ℕ) {width bound : ℕ}
    (hlength : ∀ n, (put n).length = width) (hget : ∀ n rest, get (put n ++ rest) = n % bound)
    {m n : ℕ} {s t : List UInt8} (hm : m < bound) (hn : n < bound) (h : put m ++ s = put n ++ t) :
    m = n ∧ s = t := by
  have hnumber := congrArg get h
  rw [hget, hget, Nat.mod_eq_of_lt hm, Nat.mod_eq_of_lt hn] at hnumber
  exact ⟨hnumber, (List.append_inj h ((hlength m).trans (hlength n).symm)).2⟩

theorem put16_front {m n : ℕ} {s t : List UInt8} (hm : m < 2 ^ 16) (hn : n < 2 ^ 16)
    (h : put16 m ++ s = put16 n ++ t) : m = n ∧ s = t :=
  front_of_width (be16 · 0) put16_length be16_put16 hm hn h

theorem put32_front {m n : ℕ} {s t : List UInt8} (hm : m < 2 ^ 32) (hn : n < 2 ^ 32)
    (h : put32 m ++ s = put32 n ++ t) : m = n ∧ s = t :=
  front_of_width (be32 · 0) put32_length be32_put32 hm hn h

theorem put64_front {m n : ℕ} {s t : List UInt8} (hm : m < 2 ^ 64) (hn : n < 2 ^ 64)
    (h : put64 m ++ s = put64 n ++ t) : m = n ∧ s = t :=
  front_of_width (be64 · 0) put64_length be64_put64 hm hn h

theorem string_front {a b s t : List UInt8} (ha : a.length < 2 ^ 16) (hb : b.length < 2 ^ 16)
    (h : put16 a.length ++ (a ++ s) = put16 b.length ++ (b ++ t)) : a = b ∧ s = t := by
  obtain ⟨hlength, hrest⟩ := put16_front ha hb h
  exact List.append_inj hrest hlength

theorem Kind.head_front {k k' : Kind} {s t : List UInt8} (hk : k.Fits) (hk' : k'.Fits)
    (h : k.head ++ s = k'.head ++ t) : k = k' ∧ s = t := by
  cases k <;> cases k' <;> obtain ⟨htype, hrest⟩ := List.cons.inj h
  case object.object => exact ⟨rfl, hrest⟩
  case ecmaArray.ecmaArray =>
    obtain ⟨hcount, hrest⟩ := put32_front hk hk' hrest
    exact ⟨congrArg _ hcount, hrest⟩
  case strictArray.strictArray =>
    obtain ⟨hcount, hrest⟩ := put32_front hk hk' hrest
    exact ⟨congrArg _ hcount, hrest⟩
  all_goals exact absurd htype (by decide)

/-- The mark that an encoding begins with. -/
def Amf.type : Amf → ℕ
  | .number _ => typeNumber
  | .boolean _ => typeBoolean
  | .string _ => typeString
  | .null => typeNull
  | .undefined => typeUndefined
  | .members kind _ => kind.type
  | .elements _ => typeStrictArray

theorem Amf.encode_head (v : Amf) : ∃ rest, v.encode = low v.type :: rest := by
  cases v with
  | members kind list => cases kind <;> exact ⟨_, rfl⟩
  | _ => exact ⟨_, rfl⟩

theorem Kind.type_mem (k : Kind) :
    k.type = typeObject ∨ k.type = typeEcmaArray ∨ k.type = typeStrictArray := by
  cases k
  · exact .inl rfl
  · exact .inr (.inl rfl)
  · exact .inr (.inr rfl)

theorem Kind.type_ne {n : ℕ} {k : Kind}
    (hn : n ≠ typeObject ∧ n ≠ typeEcmaArray ∧ n ≠ typeStrictArray) : n ≠ k.type := by
  rintro rfl
  rcases k.type_mem with h | h | h
  · exact hn.1 h
  · exact hn.2.1 h
  · exact hn.2.2 h

theorem Amf.type_le (v : Amf) : v.type ≤ typeStrictArray ∧ v.type ≠ objectEnd := by
  cases v with
  | members kind list =>
    have hkind := kind.type_mem
    simp only [type, typeObject, typeEcmaArray, typeStrictArray, objectEnd] at hkind ⊢
    omega
  | _ => exact ⟨by dsimp only [type]; decide, by dsimp only [type]; decide⟩

theorem Amf.same_type {a b : Amf} {s t : List UInt8} (h : a.encode ++ s = b.encode ++ t) :
    a.type = b.type := by
  obtain ⟨rest, ha⟩ := a.encode_head
  obtain ⟨rest', hb⟩ := b.encode_head
  rw [ha, hb] at h
  have hbyte := congrArg UInt8.toNat (List.cons.inj h).1
  have := a.type_le.1
  have := b.type_le.1
  rw [low_toNat, low_toNat] at hbyte
  simp only [typeStrictArray] at *
  omega

theorem member_not_ending {name : Payload} {v : Amf} {s t : List UInt8}
    (hname : name.length < 2 ^ 16) :
    put16 name.length ++ (name ++ (v.encode ++ s)) ≠ ending ++ t := by
  intro h
  have hempty : put16 name.length ++ (name ++ (v.encode ++ s)) =
      put16 ([] : Payload).length ++ (([] : Payload) ++ (low objectEnd :: t)) := h
  obtain ⟨rfl, hmark⟩ := string_front hname (by decide) hempty
  obtain ⟨rest, hv⟩ := v.encode_head
  rw [hv] at hmark
  have hbyte := congrArg UInt8.toNat (List.cons.inj hmark).1
  have := v.type_le
  rw [low_toNat, low_toNat] at hbyte
  simp only [typeStrictArray, objectEnd] at *
  omega

theorem string_encode (text rest : List UInt8) : (Amf.string text).encode ++ rest =
    low typeString :: (put16 text.length ++ (text ++ rest)) := by
  rw [Amf.encode, List.cons_append, List.append_assoc]

theorem members_encode (kind : Kind) (list : List (Payload × Amf)) (rest : List UInt8) :
    (Amf.members kind list).encode ++ rest =
      kind.head ++ (encodeMembers list ++ (ending ++ rest)) := by
  rw [Amf.encode, List.append_assoc, List.append_assoc]

theorem encodeMembers_cons (name : Payload) (v : Amf) (list : List (Payload × Amf))
    (rest : List UInt8) : encodeMembers ((name, v) :: list) ++ rest =
      put16 name.length ++ (name ++ (v.encode ++ (encodeMembers list ++ rest))) := by
  rw [encodeMembers]
  simp only [List.append_assoc]

mutual

theorem encode_front : ∀ (a b : Amf) {s t : List UInt8}, a.Fits → b.Fits → a.Named → b.Named →
    a.encode ++ s = b.encode ++ t → a = b ∧ s = t
  | .number bits, b, _, _, ha, hb, _, _, h => by
    cases b with
    | number bits' =>
      obtain ⟨rfl, hrest⟩ := put64_front ha hb (List.cons.inj h).2
      exact ⟨rfl, hrest⟩
    | members kind' _ =>
      exact absurd (Amf.same_type h) (Kind.type_ne (by dsimp only [Amf.type]; decide))
    | _ => exact absurd (Amf.same_type h) (by dsimp only [Amf.type]; decide)
  | .boolean byte, b, _, _, _, hb, _, _, h => by
    cases b with
    | boolean byte' =>
      obtain ⟨rfl, hrest⟩ := List.cons.inj (List.cons.inj h).2
      exact ⟨rfl, hrest⟩
    | members kind' _ =>
      exact absurd (Amf.same_type h) (Kind.type_ne (by dsimp only [Amf.type]; decide))
    | _ => exact absurd (Amf.same_type h) (by dsimp only [Amf.type]; decide)
  | .string text, b, _, _, ha, hb, _, _, h => by
    cases b with
    | string text' =>
      rw [string_encode, string_encode] at h
      obtain ⟨rfl, hrest⟩ := string_front ha hb (List.cons.inj h).2
      exact ⟨rfl, hrest⟩
    | members kind' _ =>
      exact absurd (Amf.same_type h) (Kind.type_ne (by dsimp only [Amf.type]; decide))
    | _ => exact absurd (Amf.same_type h) (by dsimp only [Amf.type]; decide)
  | .null, b, _, _, _, hb, _, _, h => by
    cases b with
    | null =>
      exact ⟨rfl, (List.cons.inj h).2⟩
    | members kind' _ =>
      exact absurd (Amf.same_type h) (Kind.type_ne (by dsimp only [Amf.type]; decide))
    | _ => exact absurd (Amf.same_type h) (by dsimp only [Amf.type]; decide)
  | .undefined, b, _, _, _, hb, _, _, h => by
    cases b with
    | undefined =>
      exact ⟨rfl, (List.cons.inj h).2⟩
    | members kind' _ =>
      exact absurd (Amf.same_type h) (Kind.type_ne (by dsimp only [Amf.type]; decide))
    | _ => exact absurd (Amf.same_type h) (by dsimp only [Amf.type]; decide)
  | .members kind list, b, _, _, ha, hb, hna, hnb, h => by
    cases b with
    | members kind' list' =>
      rw [members_encode, members_encode] at h
      obtain ⟨rfl, hmembers⟩ := Kind.head_front ha.1 hb.1 h
      obtain ⟨rfl, hrest⟩ := encodeMembers_front list list' ha.2 hb.2 hna hnb hmembers
      exact ⟨rfl, hrest⟩
    | elements _ => exact hnb.elim
    | _ => exact absurd (Amf.same_type h).symm (Kind.type_ne (by dsimp only [Amf.type]; decide))
  | .elements _, _, _, _, _, _, hna, _, _ => hna.elim

theorem encodeMembers_front : ∀ (list list' : List (Payload × Amf)) {s t : List UInt8},
    MembersFit list → MembersFit list' → MembersNamed list → MembersNamed list' →
    encodeMembers list ++ (ending ++ s) = encodeMembers list' ++ (ending ++ t) →
    list = list' ∧ s = t
  | [], [], _, _, _, _, _, _, h => ⟨rfl, List.append_cancel_left h⟩
  | [], (name, v) :: rest, _, _, _, hf, _, _, h => by
    rw [encodeMembers_cons] at h
    exact absurd h.symm (member_not_ending hf.1)
  | (name, v) :: rest, [], _, _, hf, _, _, _, h => by
    rw [encodeMembers_cons] at h
    exact absurd h (member_not_ending hf.1)
  | (name, v) :: rest, (name', v') :: rest', s, t, hf, hf', hn, hn', h => by
    rw [encodeMembers_cons, encodeMembers_cons] at h
    obtain ⟨rfl, hvalues⟩ := string_front hf.1 hf'.1 h
    obtain ⟨rfl, hrest⟩ := encode_front v v' hf.2.1 hf'.2.1 hn.1 hn'.1 hvalues
    obtain ⟨rfl, htail⟩ := encodeMembers_front rest rest' hf.2.2 hf'.2.2 hn.2 hn'.2 hrest
    exact ⟨rfl, htail⟩

end

example : (Amf.members .object [([97], .members (.ecmaArray 1) [([98], .null)])]).encode =
    [3, 0, 1, 97, 8, 0, 0, 0, 1, 0, 1, 98, 5, 0, 0, 9, 0, 0, 9] := by decide +kernel

end RtmpAmf

import NginxMedia.ByteString
import NginxMedia.MediaTypes

/-! The AMF0 values of `ngx_media_rtmp_wire.c`: the reader of the values a command carries, and the
writer of the commands. A number is the bit pattern of its double. -/
namespace RtmpAmf

open MediaTypes ByteString

def typeNumber : ℕ := 0
def typeBoolean : ℕ := 1
def typeString : ℕ := 2
def typeObject : ℕ := 3
def typeNull : ℕ := 5
def typeUndefined : ℕ := 6
def typeEcmaArray : ℕ := 8
def objectEnd : ℕ := 9
def typeStrictArray : ℕ := 10

def maxMembers : ℕ := 24
def maxDepth : ℕ := 1024

structure Member where
  name : Payload
  type : ℕ
  number : ℕ
  boolean : Bool
  string : Payload
  deriving DecidableEq, Repr

structure Value where
  type : ℕ
  number : ℕ
  boolean : Bool
  string : Payload
  members : List Member
  deriving DecidableEq, Repr

def Value.zero : Value := ⟨typeNumber, 0, false, [], []⟩

def be16 (bytes : List UInt8) (i : ℕ) : ℕ := byteAt bytes i * 256 + byteAt bytes (i + 1)

def be64 (bytes : List UInt8) (i : ℕ) : ℕ := be32 bytes i * 4294967296 + be32 bytes (i + 4)

/-- What a read leaves in the value, and the bytes it consumed. -/
abbrev Result := Except Rc (Value × ℕ)

def readScalar (data : List UInt8) (out : Value) : Option Result :=
  let type := byteAt data 0
  if type = typeNumber then
    some (if data.length < 9 then .error .again
      else .ok ({ out with type := type, number := be64 data 1 }, 9))
  else if type = typeBoolean then
    some (if data.length < 2 then .error .again
      else .ok ({ out with type := type, boolean := byteAt data 1 ≠ 0 }, 2))
  else if type = typeString then
    some (if data.length < 3 then .error .again
      else if data.length < 3 + be16 data 1 then .error .again
      else
        .ok ({ out with type := type, string := (data.drop 3).take (be16 data 1) },
          3 + be16 data 1))
  else if type = typeNull ∨ type = typeUndefined then some (.ok ({ out with type := type }, 1))
  else none

def AtEnd (rest : List UInt8) : Prop := rest.take 3 = [0, 0, low objectEnd]

instance (rest : List UInt8) : Decidable (AtEnd rest) :=
  inferInstanceAs (Decidable (rest.take 3 = _))

/-- The members of an aggregate that is not recorded, behind `depth` others. They are read into
the value of the aggregate. Each takes a byte, so as many rounds as there are bytes are enough. -/
def skipMembers (read : List UInt8 → Value → Result) : ℕ → ℕ → List UInt8 → Value → Result
  | 0, _, _, out => .ok (out, 0)
  | n + 1, depth, rest, out =>
    if rest = [] then .ok (out, 0)
    else if AtEnd rest then .ok (out, 3)
    else if rest.length < 2 then .error .again
    else if rest.length < 2 + be16 rest 0 then .error .again
    else
      match read (rest.drop (2 + be16 rest 0)) out with
      | .error rc => .error rc
      | .ok (out, used) =>
        if depth + 1 > 1024 then .error .error
        else
          match skipMembers read n (depth + 1) (rest.drop (2 + be16 rest 0 + used)) out with
          | .error rc => .error rc
          | .ok (out, more) => .ok (out, 2 + be16 rest 0 + used + more)

def Value.record (out : Value) (name : Payload) (member : Value) : Value :=
  if out.members.length < maxMembers then
    { out with
      members := out.members ++
        [⟨name, member.type, member.number, member.boolean, member.string⟩] }
  else out

def recordMembers (read : List UInt8 → Value → Result) : ℕ → List UInt8 → Value → Result
  | 0, _, _ => .error .again
  | n + 1, rest, out =>
    if rest = [] then .error .again
    else if AtEnd rest then .ok (out, 3)
    else if rest.length < 2 then .error .again
    else if rest.length ≤ 2 + be16 rest 0 then .error .again
    else
      match read (rest.drop (2 + be16 rest 0)) Value.zero with
      | .error rc => .error rc
      | .ok (member, used) =>
        match recordMembers read n (rest.drop (2 + be16 rest 0 + used))
            (out.record ((rest.drop 2).take (be16 rest 0)) member) with
        | .error rc => .error rc
        | .ok (out, more) => .ok (out, 2 + be16 rest 0 + used + more)

def readAggregate (read : List UInt8 → Value → Result) (record : Bool) (data : List UInt8)
    (out : Value) : Result :=
  let type := byteAt data 0
  let out :=
    { out with type := if record = true ∨ type ≠ typeEcmaArray then type else typeObject }
  let head := if type = typeEcmaArray ∨ type = typeStrictArray then 5 else 1
  if data.length < head then .error .again
  else
    let members :=
      if record then recordMembers read data.length (data.drop head) out
      else skipMembers read data.length 0 (data.drop head) out
    match members with
    | .error rc => .error rc
    | .ok (out, n) => .ok (out, head + n)

def readWith (inner : Option (List UInt8 → Value → Result)) (record : Bool) (data : List UInt8)
    (out : Value) : Result :=
  if data = [] then .error .again
  else
    match readScalar data out with
    | some result => result
    | none =>
      if byteAt data 0 = typeObject ∨ byteAt data 0 = typeEcmaArray ∨
          byteAt data 0 = typeStrictArray then
        match inner with
        | none => .error .error
        | some read => readAggregate read record data out
      else .error .error

/-- `ngx_media_amf_read_value()`, with the number of levels that an aggregate may still open. -/
def readValue : ℕ → Bool → List UInt8 → Value → Result
  | 0, record, data, out => readWith none record data out
  | room + 1, record, data, out => readWith (some (readValue room false)) record data out

def read (data : List UInt8) : Result := readValue maxDepth true data Value.zero

def member (value : Value) (name : List UInt8) : Option Payload :=
  if value.type ≠ typeObject ∧ value.type ≠ typeEcmaArray then none
  else (value.members.find? fun m => m.name = name).map Member.string

/-- `d >= 1` for the double of a bit pattern: neither negative nor below one nor no number. -/
def AtLeastOne (bits : ℕ) : Prop :=
  bits / 2 ^ 63 = 0 ∧ bits / 2 ^ 52 % 2048 ≥ 1023 ∧ bits ≤ 2047 * 2 ^ 52

instance (bits : ℕ) : Decidable (AtLeastOne bits) :=
  inferInstanceAs (Decidable (_ ∧ _))

def toUnsigned (bits : ℕ) : ℕ :=
  let exponent := bits / 2 ^ 52 % 2048
  let mantissa := 2 ^ 52 + bits % 2 ^ 52
  if exponent ≥ 1075 then mantissa * 2 ^ (exponent - 1075) % 2 ^ 64
  else mantissa / 2 ^ (1075 - exponent)

/-- The bit pattern of a number that needs no more than the mantissa. -/
def double (n : ℕ) : ℕ :=
  if n = 0 then 0 else (1023 + Nat.log2 n) * 2 ^ 52 + (n * 2 ^ (52 - Nat.log2 n) - 2 ^ 52)

example : double 4071 = 0x40AFCE0000000000 ∧ toUnsigned (double 4071) = 4071 := by decide +kernel

structure Writer where
  data : List UInt8
  capacity : ℕ
  objects : ℕ
  deriving DecidableEq, Repr

def Writer.init (capacity : ℕ) : Writer := ⟨[], capacity, 0⟩

def Writer.put (bytes : List UInt8) (w : Writer) : Option Writer :=
  if w.data.length + bytes.length ≤ w.capacity then some { w with data := w.data ++ bytes }
  else none

def put16 (n : ℕ) : List UInt8 := [low (n / 256), low n]

def put64 (n : ℕ) : List UInt8 := put32 (n / 4294967296) ++ put32 n

def Writer.putNumber (bits : ℕ) (w : Writer) : Option Writer :=
  w.put (low typeNumber :: put64 bits)

def Writer.putBoolean (v : Bool) (w : Writer) : Option Writer :=
  w.put [low typeBoolean, if v then 1 else 0]

def Writer.putString (s : List UInt8) (w : Writer) : Option Writer :=
  if s.length > 0xFFFF then none else w.put (low typeString :: put16 s.length ++ s)

def Writer.putNull (w : Writer) : Option Writer := w.put [low typeNull]

def Writer.beginObject (w : Writer) : Option Writer :=
  (w.put [low typeObject]).map fun w => { w with objects := w.objects + 1 }

def Writer.endObject (w : Writer) : Option Writer :=
  if w.objects = 0 then none
  else (w.put [0, 0, low objectEnd]).map fun w => { w with objects := w.objects - 1 }

def Writer.putName (name : List UInt8) (w : Writer) : Option Writer :=
  if name.length > 0xFFFF then none else w.put (put16 name.length ++ name)

def Writer.memberString (name s : List UInt8) (w : Writer) : Option Writer :=
  (w.putName name).bind (Writer.putString s)

def Writer.memberNumber (name : List UInt8) (bits : ℕ) (w : Writer) : Option Writer :=
  (w.putName name).bind (Writer.putNumber bits)

def Writer.memberBoolean (name : List UInt8) (v : Bool) (w : Writer) : Option Writer :=
  (w.putName name).bind (Writer.putBoolean v)

def Bounded (read : List UInt8 → Value → Result) : Prop :=
  ∀ data out v n, read data out = .ok (v, n) → 0 < n ∧ n ≤ data.length

variable {read' : List UInt8 → Value → Result} {data rest : List UInt8} {out v : Value} {n : ℕ}

theorem atEnd_length (h : AtEnd rest) : 3 ≤ rest.length := by
  have hlength := congrArg List.length h
  rw [List.length_take] at hlength
  change min 3 rest.length = 3 at hlength
  omega

theorem skipMembers_bounded (h : Bounded read') (rounds depth : ℕ)
    (hread : skipMembers read' rounds depth rest out = .ok (v, n)) : n ≤ rest.length := by
  induction rounds generalizing depth rest out v n with
  | zero =>
    cases hread
    exact Nat.zero_le _
  | succ rounds ih =>
    rw [skipMembers] at hread
    split at hread
    · cases hread
      exact Nat.zero_le _
    split at hread
    · rename_i hend
      cases hread
      exact atEnd_length hend
    split at hread
    · cases hread
    split at hread
    · cases hread
    split at hread
    · cases hread
    · rename_i out' used hused
      have hinner := (h _ _ _ _ hused).2
      rw [List.length_drop] at hinner
      split at hread
      · cases hread
      split at hread
      · cases hread
      · rename_i v' more hmore
        have hmembers := ih _ hmore
        rw [List.length_drop] at hmembers
        cases hread
        omega

theorem recordMembers_bounded (h : Bounded read') (rounds : ℕ)
    (hread : recordMembers read' rounds rest out = .ok (v, n)) : n ≤ rest.length := by
  induction rounds generalizing rest out v n with
  | zero => cases hread
  | succ rounds ih =>
    rw [recordMembers] at hread
    split at hread
    · cases hread
    split at hread
    · rename_i hend
      cases hread
      exact atEnd_length hend
    split at hread
    · cases hread
    split at hread
    · cases hread
    split at hread
    · cases hread
    · rename_i out' used hused
      have hinner := (h _ _ _ _ hused).2
      rw [List.length_drop] at hinner
      split at hread
      · cases hread
      · rename_i v' more hmore
        have hmembers := ih hmore
        rw [List.length_drop] at hmembers
        cases hread
        omega

theorem readScalar_bounded {result : Result} (hne : data ≠ [])
    (hscalar : readScalar data out = some result) (hread : result = .ok (v, n)) :
    0 < n ∧ n ≤ data.length := by
  have hpos := List.length_pos_iff.mpr hne
  subst hread
  unfold readScalar at hscalar
  dsimp only at hscalar
  split_ifs at hscalar <;> cases hscalar <;> omega

theorem readAggregate_bounded (h : Bounded read') (record : Bool)
    (hread : readAggregate read' record data out = .ok (v, n)) : 0 < n ∧ n ≤ data.length := by
  unfold readAggregate at hread
  dsimp only at hread
  generalize hhead : (if byteAt data 0 = typeEcmaArray ∨ byteAt data 0 = typeStrictArray then 5
    else 1) = head at hread
  have hpos : 0 < head := by
    rw [← hhead]
    split_ifs <;> decide
  by_cases hshort : data.length < head
  · rw [if_pos hshort] at hread
    cases hread
  · rw [if_neg hshort] at hread
    cases record with
    | true =>
      rw [if_pos rfl] at hread
      split at hread
      · cases hread
      · rename_i v' more hmore
        have hmembers := recordMembers_bounded h _ hmore
        rw [List.length_drop] at hmembers
        cases hread
        omega
    | false =>
      rw [if_neg Bool.false_ne_true] at hread
      split at hread
      · cases hread
      · rename_i v' more hmore
        have hmembers := skipMembers_bounded h _ _ hmore
        rw [List.length_drop] at hmembers
        cases hread
        omega

theorem readWith_bounded {inner : Option (List UInt8 → Value → Result)}
    (h : ∀ read' ∈ inner, Bounded read') (record : Bool) : Bounded (readWith inner record) := by
  intro data out v n hread
  unfold readWith at hread
  by_cases hne : data = []
  · rw [if_pos hne] at hread
    cases hread
  · rw [if_neg hne] at hread
    split at hread
    · rename_i result hscalar
      exact readScalar_bounded hne hscalar hread
    split at hread
    · cases inner with
      | none => cases hread
      | some read' => exact readAggregate_bounded (h read' rfl) record hread
    · cases hread

theorem readValue_bounded (room : ℕ) (record : Bool) : Bounded (readValue room record) := by
  induction room generalizing record with
  | zero => exact readWith_bounded (fun _ hread => absurd hread (Option.not_mem_none _)) record
  | succ room ih =>
    apply readWith_bounded
    intro read' hread
    rw [← Option.some.inj hread]
    exact ih false

theorem read_bounded (hread : read data = .ok (v, n)) : 0 < n ∧ n ≤ data.length :=
  readValue_bounded maxDepth true data Value.zero v n hread

end RtmpAmf

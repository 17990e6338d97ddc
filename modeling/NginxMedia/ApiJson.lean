import NginxMedia.ByteString

/-! The JSON that the control API prints and the part of it that it reads: texts are written whole,
and read by walking the members of an object and the objects of an array. -/
namespace ApiJson

open ByteString

abbrev Str := List UInt8

def hexDigit (n : ℕ) : UInt8 := if n < 10 then UInt8.ofNat (48 + n) else UInt8.ofNat (87 + n)

/-- One byte inside a string of `ngx_media_api_json_string()`. -/
def quoteByte (c : UInt8) : Str :=
  if c = 34 then [92, 34]
  else if c = 92 then [92, 92]
  else if c = 8 then [92, 98]
  else if c = 12 then [92, 102]
  else if c = 10 then [92, 110]
  else if c = 13 then [92, 114]
  else if c = 9 then [92, 116]
  else if c < 32 then [92, 117, 48, 48, hexDigit (c.toNat / 16), hexDigit (c.toNat % 16)]
  else [c]

def jsonString (value : Str) : Str := 34 :: (value.flatMap quoteByte ++ [34])

/-- What the responses are made of. -/
inductive Value where
  | string (s : Str)
  | number (n : ℕ)
  | flag (b : Bool)
  | null
  | array (vs : List Value)
  | object (ms : List (Str × Value))

mutual

def Value.text : Value → Str
  | .string s => jsonString s
  | .number n => decimal n
  | .flag b => if b then ascii "true" else ascii "false"
  | .null => ascii "null"
  | .array [] => [91, 93]
  | .array (v :: vs) => 91 :: (v.text ++ (laterElements vs ++ [93]))
  | .object [] => [123, 125]
  | .object ((k, v) :: ms) => 123 :: (jsonString k ++ 58 :: (v.text ++ (laterMembers ms ++ [125])))

def laterElements : List Value → Str
  | [] => []
  | v :: vs => 44 :: (v.text ++ laterElements vs)

def laterMembers : List (Str × Value) → Str
  | [] => []
  | (k, v) :: ms => 44 :: (jsonString k ++ 58 :: (v.text ++ laterMembers ms))

end

def space (c : UInt8) : Bool := c == 32 || c == 9 || c == 13 || c == 10

def hexValue (c : UInt8) : Option ℕ :=
  if 48 ≤ c ∧ c ≤ 57 then some (c.toNat - 48)
  else if 97 ≤ c ∧ c ≤ 102 then some (c.toNat - 97 + 10)
  else if 65 ≤ c ∧ c ≤ 70 then some (c.toNat - 65 + 10)
  else none

def hexFour : Str → Option (ℕ × Str)
  | a :: b :: c :: d :: rest =>
    match hexValue a, hexValue b, hexValue c, hexValue d with
    | some a, some b, some c, some d => some (((a * 16 + b) * 16 + c) * 16 + d, rest)
    | _, _, _, _ => none
  | _ => none

/-- What follows a backslash: the code point it stands for and the text after it. -/
def escape : Str → Option (ℕ × Str)
  | [] => none
  | c :: rest =>
    if c = 34 then some (34, rest)
    else if c = 92 then some (92, rest)
    else if c = 47 then some (47, rest)
    else if c = 98 then some (8, rest)
    else if c = 102 then some (12, rest)
    else if c = 110 then some (10, rest)
    else if c = 114 then some (13, rest)
    else if c = 116 then some (9, rest)
    else if c = 117 then
      match hexFour rest with
      | none => none
      | some (code, rest) =>
        if 0xD800 ≤ code ∧ code ≤ 0xDBFF then
          match rest with
          | 92 :: 117 :: rest =>
            match hexFour rest with
            | none => none
            | some (low, rest) =>
              if low < 0xDC00 ∨ low > 0xDFFF then none
              else some (0x10000 + (code - 0xD800) * 1024 + (low - 0xDC00), rest)
          | _ => none
        else if 0xDC00 ≤ code ∧ code ≤ 0xDFFF then none
        else some (code, rest)
    else none

def utf8 (code : ℕ) : Str :=
  if code ≤ 0x7F then [UInt8.ofNat code]
  else if code ≤ 0x7FF then [UInt8.ofNat (0xC0 + code / 64), UInt8.ofNat (0x80 + code % 64)]
  else if code ≤ 0xFFFF then
    [UInt8.ofNat (0xE0 + code / 4096), UInt8.ofNat (0x80 + code / 64 % 64),
      UInt8.ofNat (0x80 + code % 64)]
  else
    [UInt8.ofNat (0xF0 + code / 262144), UInt8.ofNat (0x80 + code / 4096 % 64),
      UInt8.ofNat (0x80 + code / 64 % 64), UInt8.ofNat (0x80 + code % 64)]

/-- `cap` bytes of room are left for what is decoded. -/
def parseStringLoop : ℕ → ℕ → Str → Option (Str × Str)
  | 0, _, _ => none
  | _ + 1, _, [] => none
  | fuel + 1, cap, c :: rest =>
    if c = 34 then some ([], rest)
    else if c ≠ 92 then
      if c < 32 ∨ cap < 1 then none
      else (parseStringLoop fuel (cap - 1) rest).map fun (s, next) => (c :: s, next)
    else
      match escape rest with
      | none => none
      | some (code, rest) =>
        if cap < (utf8 code).length then none
        else
          (parseStringLoop fuel (cap - (utf8 code).length) rest).map
            fun (s, next) => (utf8 code ++ s, next)

/-- `ngx_media_api_json_parse_string()`, from behind the opening quote; every round takes at least
one byte. -/
def parseString (cap : ℕ) (text : Str) : Option (Str × Str) :=
  parseStringLoop text.length cap text

def valueScan (container string : Bool) : ℕ → Bool → Str → Option Str
  | _, quoted, [] => if container = false ∧ quoted = false then some [] else none
  | depth, true, c :: rest =>
    if c = 92 then
      match rest with
      | [] => none
      | _ :: rest => valueScan container string depth true rest
    else if c = 34 then
      if string = true ∧ depth = 0 then some rest else valueScan container string depth false rest
    else valueScan container string depth true rest
  | depth, false, c :: rest =>
    if c = 34 then valueScan container string depth true rest
    else if c = 123 ∨ c = 91 then valueScan container string (depth + 1) false rest
    else if c = 125 ∨ c = 93 then
      if depth = 0 then some (c :: rest)
      else if depth - 1 = 0 ∧ container = true then some rest
      else valueScan container string (depth - 1) false rest
    else if c = 44 ∧ depth = 0 then some (c :: rest)
    else valueScan container string depth false rest

/-- `ngx_media_api_json_value_end()`: what is left behind the value that the text begins with. -/
def valueEnd (text : Str) : Option Str :=
  valueScan (text.head? == some 123 || text.head? == some 91) (text.head? == some 34) 0 false text

def before (text next : Str) : Str := text.take (text.length - next.length)

inductive Next where
  | done
  | error
  | object (item rest : Str)

def jsonObject (text : Str) : Next :=
  let text := text.dropWhile fun c => space c || c == 44
  if text = [] then .done
  else if text.head? ≠ some 123 then .error
  else
    match valueEnd text with
    | none => .error
    | some next => .object (before text next) next

def jsonObjectsLoop : ℕ → Str → List Str × Bool
  | 0, _ => ([], true)
  | fuel + 1, text =>
    match jsonObject text with
    | .done => ([], true)
    | .error => ([], false)
    | .object item rest =>
      let (items, whole) := jsonObjectsLoop fuel rest
      (item :: items, whole)

def jsonObjects (text : Str) : List Str × Bool := jsonObjectsLoop (text.length + 1) text

inductive Field where
  | ok (value : Str)
  | declined
  | error

def Field.value? : Field → Option Str
  | .ok value => some value
  | _ => none

def trimmed (value : Str) : Str := (value.reverse.dropWhile space).reverse

def jsonFieldLoop (pool : Bool) (key : Str) : ℕ → Str → Field
  | 0, _ => .declined
  | fuel + 1, text =>
    match text.dropWhile fun c => space c || c == 123 || c == 44 with
    | [] => .declined
    | c :: rest =>
      if c ≠ 34 then .declined
      else
        match parseString 64 rest with
        | none => .declined
        | some (parsed, rest) =>
          match rest.dropWhile space with
          | [] => .declined
          | c :: rest =>
            if c ≠ 58 then .declined
            else
              let start := rest.dropWhile space
              if start = [] then .declined
              else
                match valueEnd start with
                | none => .error
                | some next =>
                  if parsed ≠ key then jsonFieldLoop pool key fuel next
                  else if start.head? = some 34 then
                    if pool = false then .declined
                    else
                      match parseString ((before start next).length - 2)
                          ((before start next).drop 1) with
                      | none => .error
                      | some (value, _) => .ok value
                  else .ok (trimmed (before start next))

/-- `ngx_media_api_json_field()`: the first member with the key; without a pool no string can be
decoded. -/
def jsonField (pool : Bool) (body key : Str) : Field :=
  if key.length ≥ 64 then .declined else jsonFieldLoop pool key body.length body

def jsonArray (body key : Str) : Option Str :=
  match jsonField false body key with
  | .ok value =>
    if value.length ≥ 2 ∧ value.head? = some 91 ∧ value.getLast? = some 93 then
      some ((value.drop 1).dropLast)
    else none
  | _ => none

end ApiJson

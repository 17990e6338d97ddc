import NginxMedia.ByteString
import Mathlib.Data.List.Basic
import Mathlib.Data.List.DropRight

/-! The HTTP client's reader of responses in `ngx_media_http.c`. The transport hands over bytes
read by read and then ends or fails; a text is what stands in front of the NUL that closes it.
The deadline is a flag that is looked at once the response is complete. -/
namespace HttpResponse

open ByteString (ascii)

abbrev Bytes := List UInt8

def lineMax : ℕ := 8192
def headerMax : ℕ := 16384
def interimMax : ℕ := 8

/-- `overrun` is a write past the end of a buffer, `exhausted` a loop that was not given enough
rounds. -/
inductive Failure where
  | refused
  | overrun
  | exhausted
  deriving DecidableEq, Repr

/-- `ngx_media_http_reader_t`, with the reads that are still to come; none of them is empty. -/
structure Reader where
  data : Bytes
  reads : List (UInt8 × Bytes)
  fails : Bool
  deriving DecidableEq, Repr

/-- `ngx_media_http_fill()`, and the byte that it makes sure of. -/
def next (r : Reader) : Option (UInt8 × Reader) :=
  match r.data, r.reads with
  | c :: data, _ => some (c, { r with data := data })
  | [], (c, data) :: reads => some (c, { r with data := data, reads := reads })
  | [], [] => none

def line : ℕ → Bytes → Reader → Except Failure (Bytes × ℕ × Reader)
  | 0, _, _ => .error .refused
  | budget + 1, text, r =>
    match next r with
    | none => .error .refused
    | some (c, r) =>
      if c = 13 then
        match budget, next r with
        | budget + 1, some (10, r) =>
          if text.length < lineMax then .ok (text, budget, r) else .error .overrun
        | _, _ => .error .refused
      else if c = 10 ∨ c = 0 ∨ text.length + 1 ≥ lineMax then .error .refused
      else if text.length < lineMax then line budget (text ++ [c]) r
      else .error .overrun

def isDigit (c : UInt8) : Bool := 48 ≤ c ∧ c ≤ 57

def token (c : UInt8) : Bool :=
  (97 ≤ c ∧ c ≤ 122) ∨ (65 ≤ c ∧ c ≤ 90) ∨ isDigit c ∨ c ∈ ascii "!#$%&'*+-.^_`|~"

def control (c : UInt8) : Bool := (c < 0x20 ∧ c ≠ 9) ∨ c = 0x7f

def blank (c : UInt8) : Bool := c = 32 ∨ c = 9

/-- A byte as `strcasecmp()` compares it. -/
def lower (c : UInt8) : UInt8 := if 65 ≤ c ∧ c ≤ 90 then c + 32 else c

def same (text : Bytes) (word : String) : Bool := text.map lower = (ascii word).map lower

def field (text : Bytes) : Option (Bytes × Bytes) :=
  match text.dropWhile token with
  | 58 :: value =>
    if text.takeWhile token = [] ∨ value.any control then none
    else some (text.takeWhile token, (value.dropWhile blank).rdropWhile blank)
  | _ => none

/-- The digits in front of a text, behind `n`, as long as the number fits 64 bits. -/
def numeral (base : ℕ) (digit : UInt8 → Option ℕ) (n : ℕ) : Bytes → Option (ℕ × Bytes)
  | [] => some (n, [])
  | c :: rest =>
    match digit c with
    | none => some (n, c :: rest)
    | some d =>
      if n > (2 ^ 64 - 1 - d) / base then none else numeral base digit (n * base + d) rest

def decimalDigit (c : UInt8) : Option ℕ := if isDigit c then some (c.toNat - 48) else none

def hexDigit (c : UInt8) : Option ℕ :=
  if isDigit c then some (c.toNat - 48)
  else if 97 ≤ c ∧ c ≤ 102 then some (c.toNat - 87)
  else if 65 ≤ c ∧ c ≤ 70 then some (c.toNat - 55)
  else none

def number (base : ℕ) (digit : UInt8 → Option ℕ) (text : Bytes) : Option (ℕ × Bytes) :=
  if text.head?.bind digit = none then none else numeral base digit 0 text

def contentLength : ℕ → Bytes → Option ℕ → Except Failure ℕ
  | 0, _, _ => .error .exhausted
  | fuel + 1, text, seen =>
    match number 10 decimalDigit text with
    | none => .error .refused
    | some (n, rest) =>
      if seen.any (· ≠ n) then .error .refused
      else
        match rest.dropWhile blank with
        | [] => .ok n
        | 44 :: rest => contentLength fuel (rest.dropWhile blank) (some n)
        | _ => .error .refused

structure Fields where
  length : Option ℕ
  chunked : Bool
  closes : Bool
  keepalive : Bool
  deriving DecidableEq, Repr

def Fields.none : Fields := ⟨.none, false, false, false⟩

def Fields.option (fields : Fields) (name : Bytes) : Fields :=
  { fields with
    closes := fields.closes || same name "close"
    keepalive := fields.keepalive || same name "keep-alive" }

def connection : ℕ → Bytes → Fields → Except Failure Fields
  | 0, _, _ => .error .exhausted
  | fuel + 1, text, fields =>
    if text.takeWhile token = [] then .error .refused
    else
      match (text.dropWhile token).dropWhile blank with
      | [] => .ok (fields.option (text.takeWhile token))
      | 44 :: rest =>
        connection fuel (rest.dropWhile blank) (fields.option (text.takeWhile token))
      | _ => .error .refused

def quoted : Bytes → Option Bytes
  | [] => none
  | c :: rest =>
    if c = 34 then some rest
    else if c = 92 then
      match rest with
      | [] => none
      | c :: rest => if control c then none else quoted rest
    else if control c then none
    else quoted rest

def extensionValue (text : Bytes) : Option Bytes :=
  match text with
  | 34 :: rest => quoted rest
  | _ => if text.takeWhile token = [] then none else some (text.dropWhile token)

def extension (text : Bytes) : Option Bytes :=
  match text.dropWhile blank with
  | 59 :: rest =>
    if (rest.dropWhile blank).takeWhile token = [] then none
    else
      match ((rest.dropWhile blank).dropWhile token).dropWhile blank with
      | 61 :: value => extensionValue (value.dropWhile blank)
      | rest => some rest
  | _ => none

def extensions : ℕ → Bytes → Except Failure Unit
  | _, [] => .ok ()
  | 0, _ => .error .exhausted
  | fuel + 1, text =>
    match extension text with
    | none => .error .refused
    | some rest => extensions fuel rest

def chunkSize (text : Bytes) : Except Failure ℕ :=
  match number 16 hexDigit text with
  | none => .error .refused
  | some (size, rest) => do
    extensions rest.length rest
    return size

def store (cap : ℕ) (body piece : Bytes) : Except Failure Bytes :=
  if body.length + piece.length ≤ cap then .ok (body ++ piece) else .error .overrun

/-- The `while` of `ngx_media_http_bytes()`: what is there is copied, then the next read. -/
def copy (cap : ℕ) (fails : Bool) (count : ℕ) (body data : Bytes) :
    List (UInt8 × Bytes) → Except Failure (Bytes × Reader)
  | [] => do
    let body ← store cap body (data.take count)
    if count ≤ data.length then return (body, ⟨data.drop count, [], fails⟩)
    else .error .refused
  | (c, rest) :: reads => do
    let stored ← store cap body (data.take count)
    if count ≤ data.length then return (stored, ⟨data.drop count, (c, rest) :: reads, fails⟩)
    else copy cap fails (count - data.length) stored (c :: rest) reads

def bytes (cap count : ℕ) (body : Bytes) (r : Reader) : Except Failure (Bytes × Reader) :=
  if count > cap - body.length then .error .refused
  else copy cap r.fails count body r.data r.reads

def untilClose (cap : ℕ) (fails : Bool) (body data : Bytes) :
    List (UInt8 × Bytes) → Except Failure (Bytes × Reader)
  | [] => do
    let (body, r) ← bytes cap data.length body ⟨data, [], fails⟩
    if fails then .error .refused else return (body, r)
  | (c, rest) :: reads => do
    let (body, _) ← bytes cap data.length body ⟨data, (c, rest) :: reads, fails⟩
    untilClose cap fails body (c :: rest) reads

def chunkLoop (cap : ℕ) : ℕ → Bytes → Reader → Except Failure (Bytes × Reader)
  | 0, _, _ => .error .exhausted
  | fuel + 1, body, r => do
    let (text, _, r) ← line lineMax [] r
    let size ← chunkSize text
    if size = 0 then return (body, r)
    else
      let (body, r) ← bytes cap size body r
      let (text, _, r) ← line 2 [] r
      if text ≠ [] then .error .refused else chunkLoop cap fuel body r

def trailerLoop : ℕ → ℕ → Reader → Except Failure Reader
  | 0, _, _ => .error .exhausted
  | fuel + 1, budget, r => do
    let (text, budget, r) ← line budget [] r
    if text = [] then return r
    else
      match field text with
      | none => .error .refused
      | some (name, _) =>
        if same name "Content-Length" || same name "Transfer-Encoding" ||
          same name "Connection" then .error .refused
        else trailerLoop fuel budget r

def statusLine (text : Bytes) : Option (Bool × ℕ) :=
  match text.drop 7 with
  | version :: 32 :: a :: b :: c :: 32 :: reason =>
    if text.take 7 ≠ ascii "HTTP/1." ∨ (version ≠ 48 ∧ version ≠ 49) ∨ a < 49 ∨ a > 53 ∨
        isDigit b = false ∨ isDigit c = false ∨ reason.any control then none
    else some (version = 49, (a.toNat - 48) * 100 + (b.toNat - 48) * 10 + (c.toNat - 48))
  | _ => none

def takeField (version : Bool) (fields : Fields) (name value : Bytes) : Except Failure Fields :=
  if same name "Content-Length" then do
    let n ← contentLength (value.length + 1) value fields.length
    return { fields with length := some n }
  else if same name "Transfer-Encoding" then
    if fields.chunked || !version || !same value "chunked" then .error .refused
    else .ok { fields with chunked := true }
  else if same name "Connection" then connection (value.length + 1) value fields
  else .ok fields

def fieldsLoop (version : Bool) : ℕ → ℕ → Fields → Reader →
    Except Failure (Fields × ℕ × Reader)
  | 0, _, _, _ => .error .exhausted
  | fuel + 1, budget, fields, r => do
    let (text, budget, r) ← line budget [] r
    if text = [] then return (fields, budget, r)
    else
      match field text with
      | none => .error .refused
      | some (name, value) => do
        let fields ← takeField version fields name value
        fieldsLoop version fuel budget fields r

structure Head where
  version : Bool
  status : ℕ
  fields : Fields
  deriving DecidableEq, Repr

def bodiless (status : ℕ) : Bool := status = 204 ∨ status = 304

def readHead (budget : ℕ) (r : Reader) : Except Failure (Head × ℕ × Reader) := do
  let (text, budget, r) ← line budget [] r
  match statusLine text with
  | none => .error .refused
  | some (version, status) =>
    let (fields, budget, r) ← fieldsLoop version (budget + 1) budget Fields.none r
    let fields := if bodiless status then { fields with length := none, chunked := false }
      else fields
    if (fields.length.isSome && fields.chunked) ||
        (decide (status < 200) && (fields.length.isSome || fields.chunked)) then .error .refused
    else return (⟨version, status, fields⟩, budget, r)

/-- The header of the first response that is not an interim one, of which `left` may come. -/
def headLoop (left budget : ℕ) (r : Reader) : Except Failure (Head × Reader) := do
  let (head, budget, r) ← readHead budget r
  if head.status ≥ 200 then return (head, r)
  else if head.status = 101 then .error .refused
  else
    match left with
    | 0 => .error .refused
    | left + 1 => headLoop left budget r

/-- What `ngx_media_http_response()` leaves; `body` is there when it returns a status. -/
structure Response where
  status : Except Failure ℕ
  body : Bytes
  reusable : Bool
  received : Bool

def content (r : Reader) : Bytes := r.data ++ r.reads.flatMap fun read => read.1 :: read.2

def readBody (cap : ℕ) (head : Head) (r : Reader) : Except Failure (Bytes × Reader) :=
  if bodiless head.status then .ok ([], r)
  else if head.fields.chunked then do
    let (body, r) ← chunkLoop cap ((content r).length + 1) [] r
    let r ← trailerLoop (headerMax + 1) headerMax r
    return (body, r)
  else
    match head.fields.length with
    | some n => bytes cap n [] r
    | none => untilClose cap r.fails [] r.data r.reads

/-- `ngx_media_http_response()`. The first read, if there is one, sets `r.end`. -/
def response (cap : ℕ) (late : Bool) (r : Reader) : Response :=
  let received := !r.reads.isEmpty
  match headLoop interimMax headerMax r with
  | .error e => ⟨.error e, [], false, received⟩
  | .ok (head, r) =>
    let reusable := !head.fields.closes && (head.version || head.fields.keepalive) &&
      (bodiless head.status || head.fields.chunked || head.fields.length.isSome)
    match readBody cap head r with
    | .error e => ⟨.error e, [], reusable, received⟩
    | .ok (body, r) =>
      if r.data ≠ [] ∨ late then ⟨.error .refused, [], reusable, received⟩
      else ⟨.ok head.status, body, reusable, received⟩

variable {r r' : Reader} {c : UInt8} {budget budget' cap count : ℕ} {text taken body : Bytes}

theorem next_cons {rest : Bytes} (h : content r = c :: rest) :
    ∃ r', next r = some (c, r') ∧ content r' = rest ∧ r'.fails = r.fails := by
  obtain ⟨data, reads, fails⟩ := r
  cases data with
  | cons d data =>
    obtain ⟨rfl, hrest⟩ := List.cons.inj h
    exact ⟨_, rfl, hrest, rfl⟩
  | nil =>
    cases reads with
    | nil => cases h
    | cons read reads =>
      obtain ⟨rfl, hrest⟩ := List.cons.inj h
      exact ⟨_, rfl, hrest, rfl⟩

theorem next_content (h : next r = some (c, r')) : content r = c :: content r' := by
  obtain ⟨data, reads, fails⟩ := r
  unfold next at h
  split at h
  · next hdata =>
    cases h
    rw [content, hdata]
    rfl
  · next hdata hreads =>
    cases h
    rw [content, hdata, hreads]
    rfl
  · cases h

/-- Nothing but a refusal, or a result that is as `P` says. -/
def Safe {α : Type} (P : α → Prop) : Except Failure α → Prop
  | .ok a => P a
  | .error e => e = .refused

theorem Safe.bind {α β : Type} {P : α → Prop} {Q : β → Prop} {x : Except Failure α}
    {f : α → Except Failure β} (h : Safe P x) (hf : ∀ a, P a → Safe Q (f a)) :
    Safe Q (x >>= f) := by
  cases x with
  | error e => exact h
  | ok a => exact hf a h

theorem Safe.mono {α : Type} {P Q : α → Prop} {x : Except Failure α} (h : Safe P x)
    (hPQ : ∀ a, P a → Q a) : Safe Q x := by
  cases x with
  | error e => exact h
  | ok a => exact hPQ a h

theorem line_safe (budget : ℕ) (text : Bytes) (r : Reader) (hroom : text.length < lineMax) :
    Safe (fun out => out.1.length < lineMax ∧ out.2.1 + 2 ≤ budget ∧
      (content out.2.2).length + 2 ≤ (content r).length) (line budget text r) := by
  induction budget generalizing text r with
  | zero => exact rfl
  | succ budget ih =>
    unfold line
    cases hnext : next r with
    | none => exact rfl
    | some read =>
      obtain ⟨c, r₁⟩ := read
      have hone := congrArg List.length (next_content hnext)
      rw [List.length_cons] at hone
      dsimp only
      split_ifs with hcr hbad
      · split
        · next budget r₂ hsecond =>
          have htwo := congrArg List.length (next_content hsecond)
          rw [List.length_cons] at htwo
          refine ⟨hroom, ?_, ?_⟩
          · dsimp only
            omega
          · dsimp only
            omega
        · exact rfl
      · exact rfl
      · refine (ih (text ++ [c]) r₁ ?_).mono fun out hout => ⟨hout.1, ?_, ?_⟩
        · rw [List.length_append, List.length_singleton]
          omega
        · have := hout.2.1
          omega
        · have := hout.2.2
          omega

theorem numeral_length {base n m : ℕ} {digit : UInt8 → Option ℕ} {rest : Bytes}
    (h : numeral base digit n text = some (m, rest)) : rest.length ≤ text.length := by
  induction text generalizing n with
  | nil =>
    cases h
    exact Nat.le_refl _
  | cons c text ih =>
    unfold numeral at h
    split at h
    · cases h
      exact Nat.le_refl _
    · split_ifs at h
      exact (ih h).trans (Nat.le_succ _)

theorem dropWhile_length (p : UInt8 → Bool) (text : Bytes) :
    (text.dropWhile p).length ≤ text.length := (List.dropWhile_suffix p).length_le

theorem contentLength_safe {fuel : ℕ} (seen : Option ℕ) (hfuel : text.length < fuel) :
    Safe (fun _ => True) (contentLength fuel text seen) := by
  induction fuel generalizing text seen with
  | zero => omega
  | succ fuel ih =>
    unfold contentLength
    split
    · exact rfl
    · next n rest hnumber =>
      have hle : rest.length ≤ text.length := by
        unfold number at hnumber
        split_ifs at hnumber
        exact numeral_length hnumber
      have hblank := dropWhile_length blank rest
      split_ifs
      · exact rfl
      · split
        · trivial
        · next behind hbehind =>
          rw [hbehind, List.length_cons] at hblank
          have := dropWhile_length blank behind
          exact ih _ (by omega)
        · exact rfl

theorem connection_safe {fuel : ℕ} (fields : Fields) (hfuel : text.length < fuel) :
    Safe (fun _ => True) (connection fuel text fields) := by
  induction fuel generalizing text fields with
  | zero => omega
  | succ fuel ih =>
    unfold connection
    split_ifs
    · exact rfl
    · have hname := dropWhile_length token text
      have hblank := dropWhile_length blank (text.dropWhile token)
      split
      · trivial
      · next behind hbehind =>
        rw [hbehind, List.length_cons] at hblank
        have := dropWhile_length blank behind
        exact ih _ (by omega)
      · exact rfl

theorem quoted_length {n : ℕ} {rest : Bytes} (hn : text.length ≤ n)
    (h : quoted text = some rest) : rest.length < text.length := by
  induction n generalizing text with
  | zero =>
    rw [List.length_eq_zero_iff.mp (Nat.le_zero.mp hn)] at h
    cases h
  | succ n ih =>
    cases text with
    | nil => cases h
    | cons c behind =>
      rw [List.length_cons] at hn ⊢
      unfold quoted at h
      split_ifs at h
      · cases h
        exact Nat.lt_succ_self _
      · split at h
        · cases h
        · split_ifs at h
          rw [List.length_cons] at hn ⊢
          have := ih (by omega) h
          omega
      · have := ih (by omega) h
        omega

theorem takeWhile_length {p : UInt8 → Bool} (h : text.takeWhile p ≠ []) :
    (text.dropWhile p).length < text.length := by
  have := congrArg List.length (List.takeWhile_append_dropWhile (p := p) (l := text))
  rw [List.length_append] at this
  have := List.length_pos_iff.mpr h
  omega

theorem extensionValue_length {rest : Bytes} (h : extensionValue text = some rest) :
    rest.length < text.length := by
  unfold extensionValue at h
  split at h
  · exact (quoted_length (Nat.le_refl _) h).trans (Nat.lt_succ_self _)
  · split_ifs at h with hname
    cases h
    exact takeWhile_length hname

theorem extension_length {rest : Bytes} (h : extension text = some rest) :
    rest.length < text.length := by
  unfold extension at h
  have hblank := dropWhile_length blank text
  split at h
  · next behind hbehind =>
    rw [hbehind, List.length_cons] at hblank
    have hlead := dropWhile_length blank behind
    split_ifs at h with hname
    have hvalue := takeWhile_length hname
    have htrail := dropWhile_length blank ((behind.dropWhile blank).dropWhile token)
    split at h
    · next value hequals =>
      rw [hequals, List.length_cons] at htrail
      have := dropWhile_length blank value
      have := extensionValue_length h
      omega
    · cases h
      omega
  · cases h

theorem extensions_safe {fuel : ℕ} (hfuel : text.length ≤ fuel) :
    Safe (fun _ => True) (extensions fuel text) := by
  induction fuel generalizing text with
  | zero =>
    rw [List.length_eq_zero_iff.mp (Nat.le_zero.mp hfuel)]
    trivial
  | succ fuel ih =>
    cases text with
    | nil => trivial
    | cons c text =>
      simp only [extensions]
      cases hrest : extension (c :: text) with
      | none => exact rfl
      | some rest =>
        have := extension_length hrest
        exact ih (by omega)

theorem chunkSize_safe (text : Bytes) : Safe (fun _ => True) (chunkSize text) := by
  unfold chunkSize
  split
  · exact rfl
  · exact (extensions_safe (Nat.le_refl _)).bind fun _ _ => trivial

theorem store_safe {piece : Bytes} (h : body.length + piece.length ≤ cap) :
    store cap body piece = .ok (body ++ piece) := if_pos h

theorem copy_safe {fails : Bool} {data : Bytes} {reads : List (UInt8 × Bytes)}
    (h : body.length + count ≤ cap) :
    Safe (fun out => out.1.length = body.length + count ∧
      (content out.2).length + count = (content ⟨data, reads, fails⟩).length)
      (copy cap fails count body data reads) := by
  have htake : (data.take count).length = min count data.length := List.length_take
  have hdrop : (data.drop count).length = data.length - count := List.length_drop
  induction reads generalizing count body data with
  | nil =>
    unfold copy
    rw [store_safe (by omega)]
    change Safe _ (if count ≤ data.length then _ else _)
    split_ifs
    · simp only [Safe, pure, Except.pure, content, List.length_append, htake, hdrop]
      omega
    · exact rfl
  | cons read reads ih =>
    obtain ⟨c, rest⟩ := read
    unfold copy
    rw [store_safe (by omega)]
    change Safe _ (if count ≤ data.length then _ else _)
    split_ifs
    · simp only [Safe, pure, Except.pure, content, List.length_append, htake, hdrop]
      omega
    · refine (ih (by rw [List.length_append]; omega) List.length_take List.length_drop).mono
        fun out hout => ?_
      simp only [content, List.length_append, htake, List.flatMap_cons, List.length_cons] at hout ⊢
      omega

theorem bytes_safe (h : body.length ≤ cap) (r : Reader) :
    Safe (fun out => out.1.length ≤ cap ∧
      (content out.2).length + count = (content r).length) (bytes cap count body r) := by
  unfold bytes
  split_ifs with hcount
  · exact rfl
  · refine (copy_safe (by omega)).mono fun out hout => ⟨?_, hout.2⟩
    have := hout.1
    omega

theorem untilClose_safe {fails : Bool} {data : Bytes} {reads : List (UInt8 × Bytes)}
    (h : body.length ≤ cap) :
    Safe (fun out => out.1.length ≤ cap) (untilClose cap fails body data reads) := by
  induction reads generalizing body data with
  | nil =>
    unfold untilClose
    refine (bytes_safe h _).bind fun out hout => ?_
    dsimp only
    split_ifs
    · exact rfl
    · exact hout.1
  | cons read reads ih =>
    unfold untilClose
    exact (bytes_safe h _).bind fun out hout => ih hout.1

theorem chunkLoop_safe {fuel : ℕ} (hfuel : (content r).length < fuel) (h : body.length ≤ cap) :
    Safe (fun out => out.1.length ≤ cap) (chunkLoop cap fuel body r) := by
  induction fuel generalizing body r with
  | zero => omega
  | succ fuel ih =>
    unfold chunkLoop
    refine (line_safe lineMax [] r (by decide)).bind fun out hline => ?_
    obtain ⟨text, _, r₁⟩ := out
    refine (chunkSize_safe text).bind fun size _ => ?_
    split_ifs
    · exact h
    · refine (bytes_safe h r₁).bind fun out hbody => ?_
      obtain ⟨body, r₂⟩ := out
      refine (line_safe 2 [] r₂ (by decide)).bind fun out hend => ?_
      obtain ⟨text, _, r₃⟩ := out
      dsimp only at hline hbody hend ⊢
      split_ifs
      · exact rfl
      · exact ih (by omega) hbody.1

theorem trailerLoop_safe {fuel : ℕ} (hfuel : budget < fuel) (r : Reader) :
    Safe (fun _ => True) (trailerLoop fuel budget r) := by
  induction fuel generalizing budget r with
  | zero => omega
  | succ fuel ih =>
    unfold trailerLoop
    refine (line_safe budget [] r (by decide)).bind fun out hline => ?_
    obtain ⟨text, budget', r₁⟩ := out
    dsimp only at hline ⊢
    split_ifs
    · trivial
    · split
      · exact rfl
      · split_ifs
        · exact rfl
        · exact ih (by omega) r₁

theorem takeField_safe (version : Bool) (fields : Fields) (name value : Bytes) :
    Safe (fun _ => True) (takeField version fields name value) := by
  unfold takeField
  split_ifs
  · exact (contentLength_safe _ (Nat.lt_succ_self _)).bind fun _ _ => trivial
  · exact rfl
  · trivial
  · exact connection_safe _ (Nat.lt_succ_self _)
  · trivial

theorem fieldsLoop_safe {version : Bool} {fuel : ℕ} (fields : Fields) (hfuel : budget < fuel)
    (r : Reader) : Safe (fun _ => True) (fieldsLoop version fuel budget fields r) := by
  induction fuel generalizing budget fields r with
  | zero => omega
  | succ fuel ih =>
    unfold fieldsLoop
    refine (line_safe budget [] r (by decide)).bind fun out hline => ?_
    obtain ⟨text, budget', r₁⟩ := out
    dsimp only at hline ⊢
    split_ifs
    · trivial
    · split
      · exact rfl
      · next name value _ =>
        exact (takeField_safe version fields name value).bind fun fields _ =>
          ih fields (by omega) r₁

theorem readHead_safe (budget : ℕ) (r : Reader) :
    Safe (fun _ => True) (readHead budget r) := by
  unfold readHead
  refine (line_safe budget [] r (by decide)).bind fun out _ => ?_
  obtain ⟨text, budget, r⟩ := out
  dsimp only
  split
  · exact rfl
  · refine (fieldsLoop_safe Fields.none (Nat.lt_succ_self _) r).bind fun out _ => ?_
    split_ifs
    all_goals first
      | exact rfl
      | trivial

theorem headLoop_safe (left budget : ℕ) (r : Reader) :
    Safe (fun _ => True) (headLoop left budget r) := by
  induction left generalizing budget r with
  | zero =>
    unfold headLoop
    refine (readHead_safe budget r).bind fun out _ => ?_
    dsimp only
    split_ifs
    · trivial
    · exact rfl
    · exact rfl
  | succ left ih =>
    unfold headLoop
    refine (readHead_safe budget r).bind fun out _ => ?_
    dsimp only
    split_ifs
    · trivial
    · exact rfl
    · exact ih _ _

theorem readBody_safe (cap : ℕ) (head : Head) (r : Reader) :
    Safe (fun out => out.1.length ≤ cap) (readBody cap head r) := by
  unfold readBody
  split_ifs
  · exact Nat.zero_le _
  · refine (chunkLoop_safe (Nat.lt_succ_self _) (Nat.zero_le _)).bind fun out hout => ?_
    exact (trailerLoop_safe (Nat.lt_succ_self _) _).bind fun _ _ => hout
  · split
    · exact (bytes_safe (Nat.zero_le _) r).mono fun _ hout => hout.1
    · exact untilClose_safe (Nat.zero_le _)

/-- Whatever the transport hands over, the response is refused or read: no loop runs on, no text
outgrows its buffer, and the body stays within its own. -/
theorem response_bounded (cap : ℕ) (late : Bool) (r : Reader) :
    (response cap late r).status ≠ .error .overrun ∧
      (response cap late r).status ≠ .error .exhausted ∧
      (response cap late r).body.length ≤ cap := by
  have hhead := headLoop_safe interimMax headerMax r
  unfold response
  dsimp only
  cases hout : headLoop interimMax headerMax r with
  | error e =>
    rw [hout] at hhead
    obtain rfl : e = .refused := hhead
    exact ⟨nofun, nofun, Nat.zero_le _⟩
  | ok out =>
    obtain ⟨head, r₁⟩ := out
    have hbody := readBody_safe cap head r₁
    dsimp only
    cases hread : readBody cap head r₁ with
    | error e =>
      rw [hread] at hbody
      obtain rfl : e = .refused := hbody
      exact ⟨nofun, nofun, Nat.zero_le _⟩
    | ok out =>
      rw [hread] at hbody
      dsimp only
      split_ifs
      · exact ⟨nofun, nofun, Nat.zero_le _⟩
      · exact ⟨nofun, nofun, hbody⟩

end HttpResponse

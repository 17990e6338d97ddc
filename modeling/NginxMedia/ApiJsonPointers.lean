import NginxMedia.ApiJsonLayout

/-! The same reader as it walks its buffers: every byte is loaded at a pointer and stored at one,
and a load at or behind the end, a store behind the room, or a loop that does not end is a fault. -/
namespace ApiJson

open ByteString

namespace Pointers

inductive Fault where
  | load
  | store
  | length
  | endless
  deriving DecidableEq

abbrev Run := Except Fault

/-- `*p` of a buffer that ends with `text`. -/
def load (text : Str) (p : ℕ) : Run UInt8 :=
  match text[p]? with
  | some c => .ok c
  | none => .error .load

def store (cap : ℕ) (out : Str) (c : UInt8) : Run Str :=
  if out.length < cap then .ok (out ++ [c]) else .error .store

def storeAll (cap : ℕ) : Str → Str → Run Str
  | out, [] => .ok out
  | out, c :: rest => do storeAll cap (← store cap out c) rest

/-- `while (p < end && test(*p)) p++` -/
def skip (test : UInt8 → Bool) (text : Str) : ℕ → ℕ → Run ℕ
  | 0, _ => .error .endless
  | fuel + 1, p =>
    if p < text.length then do
      if test (← load text p) then skip test text fuel (p + 1) else return p
    else return p

def hexDigits (text : Str) : ℕ → ℕ → ℕ → Run (Option (ℕ × ℕ))
  | 0, code, p => return some (code, p)
  | left + 1, code, p => do
    match hexValue (← load text p) with
    | none => return none
    | some digit => hexDigits text left (code * 16 + digit) (p + 1)

def lowSurrogate (text : Str) (code p : ℕ) : Run (Option (ℕ × ℕ)) := do
  if text.length - p < 6 then return none
  if (← load text p) ≠ 92 then return none
  if (← load text (p + 1)) ≠ 117 then return none
  match ← hexDigits text 4 0 (p + 2) with
  | none => return none
  | some (low, p) =>
    if low < 0xDC00 ∨ low > 0xDFFF then return none
    else return some (0x10000 + (code - 0xD800) * 1024 + (low - 0xDC00), p)

/-- The `switch` behind a backslash. -/
def escapeAt (text : Str) (p : ℕ) : Run (Option (ℕ × ℕ)) := do
  let c ← load text p
  if c = 34 then return some (34, p + 1)
  else if c = 92 then return some (92, p + 1)
  else if c = 47 then return some (47, p + 1)
  else if c = 98 then return some (8, p + 1)
  else if c = 102 then return some (12, p + 1)
  else if c = 110 then return some (10, p + 1)
  else if c = 114 then return some (13, p + 1)
  else if c = 116 then return some (9, p + 1)
  else if c = 117 then
    if text.length - (p + 1) < 4 then return none
    else
      match ← hexDigits text 4 0 (p + 1) with
      | none => return none
      | some (code, p) =>
        if 0xD800 ≤ code ∧ code ≤ 0xDBFF then lowSurrogate text code p
        else if 0xDC00 ≤ code ∧ code ≤ 0xDFFF then return none
        else return some (code, p)
  else return none

def parseLoop (text : Str) (cap : ℕ) : ℕ → ℕ → Str → Run (Option (Str × ℕ))
  | 0, _, _ => .error .endless
  | fuel + 1, p, out =>
    if p < text.length then do
      let c ← load text p
      if c = 34 then return some (out, p + 1)
      else if c ≠ 92 then
        if c < 32 ∨ cap - out.length < 1 then return none
        else parseLoop text cap fuel (p + 1) (← store cap out c)
      else if p + 1 = text.length then return none
      else
        match ← escapeAt text (p + 1) with
        | none => return none
        | some (code, p) =>
          if cap - out.length < (utf8 code).length then return none
          else parseLoop text cap fuel p (← storeAll cap out (utf8 code))
    else return none

/-- `ngx_media_api_json_parse_string()`: every round takes at least one byte. -/
def parseStringAt (text : Str) (cap p : ℕ) : Run (Option (Str × ℕ)) :=
  parseLoop text cap (text.length - p + 1) p []

def valueEndLoop (text : Str) (container string : Bool) : ℕ → ℕ → Bool → ℕ → Run (Option ℕ)
  | 0, _, _, _ => .error .endless
  | fuel + 1, depth, quoted, p =>
    if p < text.length then do
      let c ← load text p
      if quoted then
        if c = 92 then
          if p + 1 = text.length then return none
          else valueEndLoop text container string fuel depth true (p + 2)
        else if c = 34 then
          if string = true ∧ depth = 0 then return some (p + 1)
          else valueEndLoop text container string fuel depth false (p + 1)
        else valueEndLoop text container string fuel depth true (p + 1)
      else if c = 34 then valueEndLoop text container string fuel depth true (p + 1)
      else if c = 123 ∨ c = 91 then
        valueEndLoop text container string fuel (depth + 1) false (p + 1)
      else if c = 125 ∨ c = 93 then
        if depth = 0 then return some p
        else if depth - 1 = 0 ∧ container = true then return some (p + 1)
        else valueEndLoop text container string fuel (depth - 1) false (p + 1)
      else if c = 44 ∧ depth = 0 then return some p
      else valueEndLoop text container string fuel depth false (p + 1)
    else return if container = false ∧ quoted = false then some p else none

def valueEndAt (text : Str) (p : ℕ) : Run (Option ℕ) := do
  let c ← load text p
  valueEndLoop text (c == 123 || c == 91) (c == 34) (text.length + 1) 0 false p

/-- The bytes from one pointer to another. -/
def slice (text : Str) (start next : ℕ) : Str := (text.drop start).take (next - start)

inductive NextAt where
  | done (p : ℕ)
  | error
  | object (item : Str) (p : ℕ)

def objectAt (text : Str) (p : ℕ) : Run NextAt := do
  let p ← skip (fun c => space c || c == 44) text (text.length + 1) p
  if p = text.length then return .done p
  if (← load text p) ≠ 123 then return .error
  match ← valueEndAt text p with
  | none => return .error
  | some next => return .object (slice text p next) next

def trimBack (text : Str) (start : ℕ) : ℕ → Run ℕ
  | 0 => return 0
  | next + 1 =>
    if next + 1 > start then do
      if space (← load text next) then trimBack text start next else return next + 1
    else return next + 1

/-- A pool, or none; an allocation may fail. -/
abbrev Pool := Option (ℕ → Bool)

/-- What is done with the member that has the key. -/
def valueAt (pool : Pool) (text : Str) (start next : ℕ) : Run Field := do
  if (← load text start) = 34 then
    match pool with
    | none => return .declined
    | some alloc =>
      -- the two quotes
      if next - start < 2 then .error .length
      else
        let len := next - start - 2
        if alloc (if len = 0 then 1 else len) = false then return .error
        else
          match ← parseStringAt (text.take next) len (start + 1) with
          | none => return .error
          | some (value, _) => return .ok value
  else return .ok (slice text start (← trimBack text start next))

def fieldLoop (pool : Pool) (key text : Str) : ℕ → ℕ → Run Field
  | 0, _ => .error .endless
  | fuel + 1, p =>
    if p < text.length then do
      let p ← skip (fun c => space c || c == 123 || c == 44) text (text.length + 1) p
      if p = text.length then return .declined
      if (← load text p) ≠ 34 then return .declined
      match ← parseStringAt text 64 (p + 1) with
      | none => return .declined
      | some (parsed, p) =>
        let p ← skip space text (text.length + 1) p
        if p = text.length then return .declined
        if (← load text p) ≠ 58 then return .declined
        let start ← skip space text (text.length + 1) (p + 1)
        if start = text.length then return .declined
        match ← valueEndAt text start with
        | none => return .error
        | some next =>
          if parsed ≠ key then fieldLoop pool key text fuel next
          else valueAt pool text start next
    else return .declined

def fieldAt (pool : Pool) (body key : Str) : Run Field :=
  if key.length ≥ 64 then return .declined else fieldLoop pool key body (body.length + 1) 0

variable {text : Str} {p : ℕ}

theorem load_of_drop {c : UInt8} {rest : Str} (h : text.drop p = c :: rest) :
    p < text.length ∧ load text p = .ok c ∧ text.drop (p + 1) = rest := by
  have hlt : p < text.length := by
    by_contra hge
    rw [List.drop_eq_nil_of_le (Nat.le_of_not_lt hge)] at h
    cases h
  rw [List.drop_eq_getElem_cons hlt] at h
  obtain ⟨hc, hrest⟩ := List.cons.inj h
  refine ⟨hlt, ?_, hrest⟩
  rw [load, List.getElem?_eq_getElem hlt, hc]

theorem end_of_drop (hp : p ≤ text.length) (h : text.drop p = []) : p = text.length :=
  Nat.le_antisymm hp (List.drop_eq_nil_iff.mp h)

def Follows {α : Type} (text : Str) (p : ℕ) (read : Option (α × Str))
    (run : Run (Option (α × ℕ))) : Prop :=
  match read with
  | none => run = .ok none
  | some (a, rest) => ∃ q, run = .ok (some (a, q)) ∧ p < q ∧ q ≤ text.length ∧ text.drop q = rest

theorem Follows.mono {α : Type} {p' : ℕ} (hp : p ≤ p') {read : Option (α × Str)}
    {run : Run (Option (α × ℕ))} (h : Follows text p' read run) : Follows text p read run := by
  match read with
  | none => exact h
  | some (a, rest) =>
    obtain ⟨q, hrun, hlt, hle, hdrop⟩ := h
    exact ⟨q, hrun, Nat.lt_of_le_of_lt hp hlt, hle, hdrop⟩

theorem Follows.ite {α : Type} {c : Prop} [Decidable c] {read read' : Option (α × Str)}
    {run run' : Run (Option (α × ℕ))} (h : c → Follows text p read run)
    (h' : ¬c → Follows text p read' run') :
    Follows text p (if c then read else read') (if c then run else run') := by
  by_cases hc : c
  · rw [if_pos hc, if_pos hc]
    exact h hc
  · rw [if_neg hc, if_neg hc]
    exact h' hc

theorem skip_follows (test : UInt8 → Bool) {fuel : ℕ} (hfuel : text.length - p < fuel)
    (hp : p ≤ text.length) : ∃ q, skip test text fuel p = .ok q ∧ p ≤ q ∧ q ≤ text.length ∧
      (text.drop p).dropWhile test = text.drop q := by
  induction fuel generalizing p with
  | zero => exact absurd hfuel (Nat.not_lt_zero _)
  | succ fuel ih =>
    cases hdrop : text.drop p with
    | nil =>
      have hend := end_of_drop hp hdrop
      refine ⟨p, ?_, Nat.le_refl p, hp, hdrop.symm⟩
      rw [skip, if_neg (by omega)]
      rfl
    | cons c rest =>
      obtain ⟨hlt, hload, hrest⟩ := load_of_drop hdrop
      rw [skip, if_pos hlt, hload]
      cases hc : test c with
      | false =>
        refine ⟨p, ?_, Nat.le_refl p, hp, ?_⟩
        · simp only [bind, Except.bind, hc]
          rfl
        · rw [List.dropWhile_cons, hc, hdrop]
          rfl
      | true =>
        obtain ⟨q, hskip, hle, hq, hwhile⟩ := ih (p := p + 1) (by omega) hlt
        refine ⟨q, ?_, by omega, hq, ?_⟩
        · simp only [bind, Except.bind, hc, if_true]
          exact hskip
        · rw [List.dropWhile_cons, hc, if_pos rfl, ← hrest]
          exact hwhile

theorem hexDigits_follows (h : p + 4 ≤ text.length) :
    Follows text p (hexFour (text.drop p)) (hexDigits text 4 0 p) := by
  have hcons : ∀ q, q < text.length → ∃ c, text.drop q = c :: text.drop (q + 1) := fun q hq =>
    ⟨_, List.drop_eq_getElem_cons hq⟩
  obtain ⟨a, ha⟩ := hcons p (by omega)
  obtain ⟨b, hb⟩ := hcons (p + 1) (by omega)
  obtain ⟨c, hc⟩ := hcons (p + 1 + 1) (by omega)
  obtain ⟨d, hd⟩ := hcons (p + 1 + 1 + 1) (by omega)
  have hloads := And.intro (load_of_drop ha).2.1 (And.intro (load_of_drop hb).2.1
    (And.intro (load_of_drop hc).2.1 (load_of_drop hd).2.1))
  rw [ha, hb, hc, hd]
  simp only [hexDigits, hexFour, hloads, bind, Except.bind, pure, Except.pure]
  cases hexValue a with
  | none => rfl
  | some a =>
    cases hexValue b with
    | none => rfl
    | some b =>
      cases hexValue c with
      | none => rfl
      | some c =>
        cases hexValue d with
        | none => rfl
        | some d => exact ⟨p + 1 + 1 + 1 + 1, by simp, by omega, by omega, rfl⟩

theorem hexFour_short {t : Str} (h : t.length < 4) : hexFour t = none := by
  match t with
  | [] => rfl
  | [_] => rfl
  | [_, _] => rfl
  | [_, _, _] => rfl
  | _ :: _ :: _ :: _ :: _ =>
    simp only [List.length_cons] at h
    omega

def lowHalf (code : ℕ) (text : Str) : Option (ℕ × Str) :=
  match text with
  | 92 :: 117 :: rest =>
    match hexFour rest with
    | none => none
    | some (low, rest) =>
      if low < 0xDC00 ∨ low > 0xDFFF then none
      else some (0x10000 + (code - 0xD800) * 1024 + (low - 0xDC00), rest)
  | _ => none

theorem lowHalf_short {code : ℕ} {t : Str} (h : t.length < 6) : lowHalf code t = none := by
  unfold lowHalf
  split
  · next rest =>
    simp only [List.length_cons] at h
    rw [hexFour_short (by omega)]
  · rfl

theorem lowSurrogate_follows (code : ℕ) :
    Follows text p (lowHalf code (text.drop p)) (lowSurrogate text code p) := by
  unfold lowSurrogate
  by_cases hshort : text.length - p < 6
  · rw [lowHalf_short (by rw [List.length_drop]; exact hshort), if_pos hshort]
    rfl
  rw [if_neg hshort]
  have hcons : ∀ q, q < text.length → ∃ c, text.drop q = c :: text.drop (q + 1) := fun q hq =>
    ⟨_, List.drop_eq_getElem_cons hq⟩
  obtain ⟨a, ha⟩ := hcons p (by omega)
  obtain ⟨b, hb⟩ := hcons (p + 1) (by omega)
  obtain ⟨-, hloadA, -⟩ := load_of_drop ha
  obtain ⟨-, hloadB, -⟩ := load_of_drop hb
  rw [ha, hb]
  simp only [hloadA, hloadB, bind, Except.bind, pure, Except.pure]
  by_cases ha92 : a = 92
  · by_cases hb117 : b = 117
    · subst ha92 hb117
      simp only [ne_eq, not_true_eq_false, if_false, lowHalf]
      have hfour := @hexDigits_follows text (p + 1 + 1) (by omega)
      revert hfour
      cases hexFour (text.drop (p + 1 + 1)) with
      | none =>
        intro hfour
        have hrun : hexDigits text 4 0 (p + 2) = .ok none := hfour
        rw [hrun]
        rfl
      | some found =>
        obtain ⟨low, rest⟩ := found
        rintro ⟨q, hrun, hlt, hle, hrest⟩
        have hrun : hexDigits text 4 0 (p + 2) = .ok (some (low, q)) := hrun
        rw [hrun]
        dsimp only
        split_ifs
        · rfl
        · exact ⟨q, rfl, by omega, hle, hrest⟩
    · have hnone : lowHalf code (a :: b :: text.drop (p + 1 + 1)) = none := by
        unfold lowHalf
        split
        · next heq =>
          cases heq
          exact absurd rfl hb117
        · rfl
      rw [hnone, if_neg (not_not.mpr ha92), if_pos hb117]
      rfl
  · have hnone : lowHalf code (a :: b :: text.drop (p + 1 + 1)) = none := by
      unfold lowHalf
      split
      · next heq =>
        cases heq
        exact absurd rfl ha92
      · rfl
    rw [hnone, if_pos ha92]
    rfl

theorem escape_follows (hp : p < text.length) :
    Follows text p (escape (text.drop p)) (escapeAt text p) := by
  obtain ⟨c, hc⟩ : ∃ c, text.drop p = c :: text.drop (p + 1) :=
    ⟨_, List.drop_eq_getElem_cons hp⟩
  obtain ⟨-, hload, -⟩ := load_of_drop hc
  have hplain : ∀ code : ℕ, Follows text p (some (code, text.drop (p + 1)))
      (.ok (some (code, p + 1))) := fun code => ⟨p + 1, rfl, Nat.lt_succ_self p, hp, rfl⟩
  rw [hc, escapeAt, hload, escape]
  simp only [bind, Except.bind, pure, Except.pure]
  refine Follows.ite (fun _ => hplain 34) fun _ => ?_
  refine Follows.ite (fun _ => hplain 92) fun _ => ?_
  refine Follows.ite (fun _ => hplain 47) fun _ => ?_
  refine Follows.ite (fun _ => hplain 8) fun _ => ?_
  refine Follows.ite (fun _ => hplain 12) fun _ => ?_
  refine Follows.ite (fun _ => hplain 10) fun _ => ?_
  refine Follows.ite (fun _ => hplain 13) fun _ => ?_
  refine Follows.ite (fun _ => hplain 9) fun _ => ?_
  refine Follows.ite (fun _ => ?_) fun _ => rfl
  by_cases hshort : text.length - (p + 1) < 4
  · rw [hexFour_short (by rw [List.length_drop]; exact hshort), if_pos hshort]
    rfl
  rw [if_neg hshort]
  have hfour := @hexDigits_follows text (p + 1) (by omega)
  revert hfour
  cases hexFour (text.drop (p + 1)) with
  | none =>
    intro hfour
    have hrun : hexDigits text 4 0 (p + 1) = .ok none := hfour
    rw [hrun]
    rfl
  | some found =>
    obtain ⟨code, rest⟩ := found
    rintro ⟨q, hrun, hlt, hle, rfl⟩
    rw [hrun]
    refine Follows.ite (fun _ => (lowSurrogate_follows code).mono (by omega)) fun _ => ?_
    exact Follows.ite (fun _ => rfl) fun _ => ⟨q, rfl, by omega, hle, rfl⟩

theorem storeAll_fits {cap : ℕ} {out bytes : Str} (h : out.length + bytes.length ≤ cap) :
    storeAll cap out bytes = .ok (out ++ bytes) := by
  induction bytes generalizing out with
  | nil => rw [storeAll, List.append_nil]
  | cons c rest ih =>
    rw [List.length_cons] at h
    have hnext := @ih (out ++ [c]) (by rw [List.length_append, List.length_singleton]; omega)
    rw [List.append_assoc, List.singleton_append] at hnext
    rw [storeAll, store, if_pos (by omega)]
    exact hnext

/-- A string that is read at a pointer, into a buffer that holds `out` already. -/
theorem map_front (f g : Str → Str) (parsed : Option (Str × Str)) :
    (parsed.map fun (s, next) => (f s, next)).map (fun (s, next) => (g s, next)) =
      parsed.map fun (s, next) => (g (f s), next) := by
  cases parsed <;> rfl

theorem parseLoop_follows {cap fuel : ℕ} {out : Str} (hfuel : text.length - p ≤ fuel)
    (hp : p ≤ text.length) (hout : out.length ≤ cap) :
    Follows text p ((parseStringLoop fuel (cap - out.length) (text.drop p)).map
      fun (s, next) => (out ++ s, next)) (parseLoop text cap (fuel + 1) p out) := by
  induction fuel generalizing p out with
  | zero =>
    have hend : ¬ p < text.length := by omega
    rw [parseLoop, if_neg hend]
    rfl
  | succ fuel ih =>
    cases hdrop : text.drop p with
    | nil =>
      have hend : ¬ p < text.length := by
        have := end_of_drop hp hdrop
        omega
      rw [parseLoop, if_neg hend]
      rfl
    | cons c rest =>
      obtain ⟨hlt, hload, rfl⟩ := load_of_drop hdrop
      rw [parseLoop, if_pos hlt, hload, parseStringLoop]
      simp only [bind, Except.bind, pure, Except.pure]
      split_ifs with hquote hplain hfull hlast
      · exact ⟨p + 1, by rw [List.append_nil], Nat.lt_succ_self p, hlt, rfl⟩
      · rfl
      · have hroom : out.length < cap := by omega
        have hnext := @ih (p + 1) (out ++ [c]) (by omega) hlt
          (by rw [List.length_append, List.length_singleton]; omega)
        rw [store, if_pos hroom]
        dsimp only
        rw [List.length_append, List.length_singleton, ← Nat.sub_sub] at hnext
        simp only [List.append_assoc, List.singleton_append] at hnext
        rw [map_front (fun s => c :: s) (fun s => out ++ s)]
        exact hnext.mono (Nat.le_succ p)
      · have hnil : text.drop (p + 1) = [] := List.drop_eq_nil_of_le (by omega)
        rw [hnil]
        rfl
      · have hescape := @escape_follows text (p + 1) (by omega)
        revert hescape
        cases escape (text.drop (p + 1)) with
        | none =>
          intro hescape
          have hrun : escapeAt text (p + 1) = .ok none := hescape
          rw [hrun]
          rfl
        | some found =>
          obtain ⟨code, rest⟩ := found
          rintro ⟨q, hrun, hlt', hle, rfl⟩
          rw [hrun]
          dsimp only
          split_ifs with hshort
          · rfl
          · rw [storeAll_fits (by omega)]
            dsimp only
            have hnext := @ih q (out ++ utf8 code) (by omega) hle
              (by rw [List.length_append]; omega)
            rw [List.length_append, ← Nat.sub_sub] at hnext
            simp only [List.append_assoc] at hnext
            rw [map_front (fun s => utf8 code ++ s) (fun s => out ++ s)]
            exact hnext.mono (by omega)

theorem parseStringAt_follows (cap : ℕ) (hp : p ≤ text.length) :
    Follows text p (parseString cap (text.drop p)) (parseStringAt text cap p) := by
  have hloop := @parseLoop_follows text p cap (text.length - p) [] (Nat.le_refl _) hp
    (Nat.zero_le cap)
  have hid : (fun (s, next) => ([] ++ s, next) : Str × Str → Str × Str) = id := by
    funext found
    rfl
  rw [hid, Option.map_id, id, List.length_nil, Nat.sub_zero, ← List.length_drop] at hloop
  rw [parseString, parseStringAt, ← List.length_drop]
  exact hloop

theorem valueScan_length {container string : Bool} {depth : ℕ} {quoted : Bool} {t rest : Str}
    (h : valueScan container string depth quoted t = some rest) :
    rest.length ≤ t.length ∧ (quoted = true → rest.length < t.length) := by
  fun_induction valueScan container string depth quoted t <;> simp_all
  all_goals omega

def Ends (text : Str) (p : ℕ) (scan : Option Str) (run : Run (Option ℕ)) : Prop :=
  match scan with
  | none => run = .ok none
  | some rest => ∃ q, run = .ok (some q) ∧ p ≤ q ∧ q ≤ text.length ∧ text.drop q = rest

theorem Ends.mono {p' : ℕ} (hp : p ≤ p') {scan : Option Str} {run : Run (Option ℕ)}
    (h : Ends text p' scan run) : Ends text p scan run := by
  match scan with
  | none => exact h
  | some rest =>
    obtain ⟨q, hrun, hle, hq, hdrop⟩ := h
    exact ⟨q, hrun, Nat.le_trans hp hle, hq, hdrop⟩

theorem Ends.ite {c : Prop} [Decidable c] {scan scan' : Option Str} {run run' : Run (Option ℕ)}
    (h : c → Ends text p scan run) (h' : ¬c → Ends text p scan' run') :
    Ends text p (if c then scan else scan') (if c then run else run') := by
  by_cases hc : c
  · rw [if_pos hc, if_pos hc]
    exact h hc
  · rw [if_neg hc, if_neg hc]
    exact h' hc

theorem valueEndLoop_ends {container string : Bool} {fuel depth : ℕ} {quoted : Bool}
    (hfuel : text.length - p < fuel) (hp : p ≤ text.length) :
    Ends text p (valueScan container string depth quoted (text.drop p))
      (valueEndLoop text container string fuel depth quoted p) := by
  induction fuel generalizing depth quoted p with
  | zero => exact absurd hfuel (Nat.not_lt_zero _)
  | succ fuel ih =>
    cases hdrop : text.drop p with
    | nil =>
      have hend := end_of_drop hp hdrop
      have hnil : valueScan container string depth quoted [] =
          if container = false ∧ quoted = false then some [] else none := by
        cases quoted <;> rfl
      rw [valueEndLoop, if_neg (by omega), hnil]
      by_cases hopen : container = false ∧ quoted = false
      · rw [if_pos hopen, if_pos hopen]
        exact ⟨p, rfl, Nat.le_refl p, hp, hdrop⟩
      · rw [if_neg hopen, if_neg hopen]
        rfl
    | cons c rest =>
      obtain ⟨hlt, hload, rfl⟩ := load_of_drop hdrop
      have hhere : Ends text p (some (c :: text.drop (p + 1))) (.ok (some p)) :=
        ⟨p, rfl, Nat.le_refl p, hp, hdrop⟩
      have hnext : Ends text p (some (text.drop (p + 1))) (.ok (some (p + 1))) :=
        ⟨p + 1, rfl, Nat.le_succ p, hlt, rfl⟩
      have hgo : ∀ depth quoted, Ends text p
          (valueScan container string depth quoted (text.drop (p + 1)))
          (valueEndLoop text container string fuel depth quoted (p + 1)) := fun depth quoted =>
        (ih (by omega) hlt).mono (Nat.le_succ p)
      rw [valueEndLoop, if_pos hlt, hload]
      simp only [bind, Except.bind, pure, Except.pure]
      cases quoted with
      | true =>
        rw [if_pos rfl]
        by_cases hslash : c = 92
        · subst hslash
          rw [if_pos rfl]
          cases hafter : text.drop (p + 1) with
          | nil =>
            have hend := end_of_drop hlt hafter
            rw [if_pos hend, valueScan.eq_def]
            rfl
          | cons d rest =>
            obtain ⟨hlt', -, rfl⟩ := load_of_drop hafter
            rw [valueScan_escaped, if_neg (by omega)]
            exact (ih (by omega) hlt').mono (by omega)
        · rw [valueScan.eq_def]
          dsimp only
          rw [if_neg hslash, if_neg hslash]
          exact Ends.ite (fun _ => Ends.ite (fun _ => hnext) fun _ => hgo depth false)
            fun _ => hgo depth true
      | false =>
        rw [if_neg Bool.false_ne_true, valueScan.eq_def]
        dsimp only
        refine Ends.ite (fun _ => hgo depth true) fun _ => ?_
        refine Ends.ite (fun _ => hgo (depth + 1) false) fun _ => ?_
        refine Ends.ite (fun _ => ?_) fun _ => ?_
        · exact Ends.ite (fun _ => hhere) fun _ =>
            Ends.ite (fun _ => hnext) fun _ => hgo (depth - 1) false
        · exact Ends.ite (fun _ => hhere) fun _ => hgo depth false

theorem valueEndAt_ends (hp : p < text.length) :
    Ends text p (valueEnd (text.drop p)) (valueEndAt text p) := by
  obtain ⟨c, hc⟩ : ∃ c, text.drop p = c :: text.drop (p + 1) :=
    ⟨_, List.drop_eq_getElem_cons hp⟩
  obtain ⟨-, hload, -⟩ := load_of_drop hc
  have hscan : Ends text p (valueScan (c == 123 || c == 91) (c == 34) 0 false (text.drop p))
      (valueEndLoop text (c == 123 || c == 91) (c == 34) (text.length + 1) 0 false p) :=
    valueEndLoop_ends (by omega) (Nat.le_of_lt hp)
  have hhead : (text.drop p).head? = some c := by
    rw [hc]
    rfl
  rw [valueEndAt, hload, valueEnd, hhead]
  exact hscan

theorem slice_succ {start next : ℕ} (hle : start ≤ next) (hlt : next < text.length) :
    slice text start (next + 1) = slice text start next ++ [text[next]] := by
  have hget : (text.drop start)[next - start]? = some text[next] := by
    rw [List.getElem?_drop, Nat.add_sub_cancel' hle, List.getElem?_eq_getElem hlt]
  rw [slice, Nat.succ_sub hle, List.take_add_one, hget]
  rfl

theorem trimBack_trimmed {start next : ℕ} (hle : start ≤ next) (hnext : next ≤ text.length) :
    ∃ q, trimBack text start next = .ok q ∧ trimmed (slice text start next) =
      slice text start q := by
  induction next with
  | zero =>
    obtain rfl := Nat.le_zero.mp hle
    exact ⟨0, rfl, rfl⟩
  | succ next ih =>
    by_cases hgt : next + 1 > start
    · have hload : load text next = .ok text[next] := by
        rw [load, List.getElem?_eq_getElem hnext]
      rw [trimBack, if_pos hgt, hload, slice_succ (Nat.le_of_lt_succ hgt) hnext]
      cases hspace : space text[next] with
      | false =>
        refine ⟨next + 1, ?_, ?_⟩
        · simp only [bind, Except.bind, hspace]
          rfl
        · rw [trimmed_of_last hspace, slice_succ (Nat.le_of_lt_succ hgt) hnext]
      | true =>
        obtain ⟨q, hrun, htrim⟩ := ih (Nat.le_of_lt_succ hgt) (Nat.le_of_lt hnext)
        refine ⟨q, ?_, ?_⟩
        · simp only [bind, Except.bind, hspace, if_true]
          exact hrun
        · rw [← htrim]
          simp [trimmed, hspace]
    · obtain rfl : start = next + 1 := by omega
      refine ⟨next + 1, ?_, ?_⟩
      · rw [trimBack, if_neg hgt]
        rfl
      · rw [slice, Nat.sub_self, List.take_zero]
        rfl

def Refuses (pool : Pool) : Prop := ∃ alloc n, pool = some alloc ∧ alloc n = false

theorem before_drop {start next : ℕ} (hle : start ≤ next) (hnext : next ≤ text.length) :
    before (text.drop start) (text.drop next) = slice text start next := by
  rw [before, slice, List.length_drop, List.length_drop]
  congr 1
  omega

theorem valueAt_follows (pool : Pool) {start next : ℕ} (hstart : start < text.length)
    (hnext : next ≤ text.length) (hle : start ≤ next)
    (hend : valueEnd (text.drop start) = some (text.drop next)) :
    ∃ r, valueAt pool text start next = .ok r ∧
      (r = (if (text.drop start).head? = some 34 then
          if pool.isSome = false then .declined
          else
            match parseString ((slice text start next).length - 2)
                ((slice text start next).drop 1) with
            | none => .error
            | some (value, _) => .ok value
        else .ok (trimmed (slice text start next))) ∨ r = .error ∧ Refuses pool) := by
  obtain ⟨c, hc⟩ : ∃ c, text.drop start = c :: text.drop (start + 1) :=
    ⟨_, List.drop_eq_getElem_cons hstart⟩
  obtain ⟨-, hload, -⟩ := load_of_drop hc
  have hhead : (text.drop start).head? = some c := by
    rw [hc]
    rfl
  unfold valueAt
  rw [hload, hhead]
  simp only [bind, Except.bind, pure, Except.pure, Option.some_inj]
  by_cases hquote : c = 34
  · rw [if_pos hquote, if_pos hquote]
    -- the closing quote is behind the opening one
    have hlong : start + 2 ≤ next := by
      have hscan : valueScan false true 0 true (text.drop (start + 1)) = some (text.drop next) := by
        have hopen : valueScan false true 0 false (34 :: text.drop (start + 1)) =
            valueScan false true 0 true (text.drop (start + 1)) := by
          rw [valueScan.eq_def]
          simp
        rw [hc, valueEnd, hquote] at hend
        exact hopen.symm.trans hend
      have hless := (valueScan_length hscan).2 rfl
      rw [List.length_drop, List.length_drop] at hless
      omega
    cases pool with
    | none => exact ⟨.declined, rfl, Or.inl rfl⟩
    | some alloc =>
      dsimp only [Option.isSome_some]
      rw [if_neg (by omega), if_neg Bool.false_ne_true.symm]
      by_cases halloc : alloc (if next - start - 2 = 0 then 1 else next - start - 2) = false
      · rw [if_pos halloc]
        exact ⟨.error, rfl, Or.inr ⟨rfl, alloc, _, rfl, halloc⟩⟩
      · rw [if_neg halloc]
        have hbuf : (text.take next).drop (start + 1) = (slice text start next).drop 1 := by
          rw [slice, List.drop_take, List.drop_take, List.drop_drop, Nat.sub_sub]
        have hlen : (slice text start next).length = next - start := by
          rw [slice, List.length_take, List.length_drop]
          omega
        have hparse := @parseStringAt_follows (text.take next) (start + 1) (next - start - 2)
          (by rw [List.length_take]; omega)
        rw [hbuf] at hparse
        rw [hlen]
        revert hparse
        cases parseString (next - start - 2) ((slice text start next).drop 1) with
        | none =>
          intro hrun
          have hrun : parseStringAt (text.take next) (next - start - 2) (start + 1) = .ok none :=
            hrun
          rw [hrun]
          exact ⟨.error, rfl, Or.inl rfl⟩
        | some found =>
          obtain ⟨value, rest⟩ := found
          rintro ⟨q, hrun, -⟩
          rw [hrun]
          exact ⟨.ok value, rfl, Or.inl rfl⟩
  · rw [if_neg hquote, if_neg hquote]
    obtain ⟨q, hrun, htrim⟩ := trimBack_trimmed hle hnext
    rw [hrun, htrim]
    exact ⟨_, rfl, Or.inl rfl⟩

/-- The look-up from a pointer on: no fault, and the answer of the text reader unless the pool
refuses an allocation. -/
theorem fieldLoop_follows (pool : Pool) (key : Str) {fuel : ℕ} (hfuel : text.length - p ≤ fuel)
    (hp : p ≤ text.length) : ∃ r, fieldLoop pool key text (fuel + 1) p = .ok r ∧
      (r = jsonFieldLoop pool.isSome key fuel (text.drop p) ∨ r = .error ∧ Refuses pool) := by
  induction fuel generalizing p with
  | zero =>
    have hend : ¬ p < text.length := by omega
    refine ⟨.declined, ?_, Or.inl rfl⟩
    rw [fieldLoop, if_neg hend]
    rfl
  | succ fuel ih =>
    rw [fieldLoop]
    by_cases hlt : p < text.length
    swap
    · have hnil : text.drop p = [] := List.drop_eq_nil_of_le (Nat.le_of_not_lt hlt)
      refine ⟨.declined, ?_, Or.inl ?_⟩
      · rw [if_neg hlt]
        rfl
      · rw [hnil]
        rfl
    rw [if_pos hlt, jsonFieldLoop]
    obtain ⟨q, hskip, hpq, hq, hwhile⟩ := skip_follows (fun c => space c || c == 123 || c == 44)
      (show text.length - p < text.length + 1 by omega) hp
    rw [hskip, hwhile]
    simp only [bind, Except.bind, pure, Except.pure]
    cases hopen : text.drop q with
    | nil =>
      rw [if_pos (end_of_drop hq hopen)]
      exact ⟨.declined, rfl, Or.inl rfl⟩
    | cons c rest =>
      obtain ⟨hqlt, hload, rfl⟩ := load_of_drop hopen
      rw [if_neg (Nat.ne_of_lt hqlt), hload]
      dsimp only
      by_cases hquote : c = 34
      swap
      · rw [if_pos hquote, if_pos hquote]
        exact ⟨.declined, rfl, Or.inl rfl⟩
      rw [if_neg (not_not.mpr hquote), if_neg (not_not.mpr hquote)]
      have hparse := parseStringAt_follows 64 (Nat.succ_le_of_lt hqlt)
      revert hparse
      cases parseString 64 (text.drop (q + 1)) with
      | none =>
        intro hrun
        have hrun : parseStringAt text 64 (q + 1) = .ok none := hrun
        rw [hrun]
        exact ⟨.declined, rfl, Or.inl rfl⟩
      | some found =>
        obtain ⟨parsed, rest⟩ := found
        rintro ⟨k, hrun, hqk, hk, rfl⟩
        obtain ⟨l, hskip, hkl, hl, hwhile⟩ := skip_follows space
          (show text.length - k < text.length + 1 by omega) hk
        rw [hrun]
        dsimp only
        rw [hskip, hwhile]
        dsimp only
        cases hcolon : text.drop l with
        | nil =>
          rw [if_pos (end_of_drop hl hcolon)]
          exact ⟨.declined, rfl, Or.inl rfl⟩
        | cons c rest =>
          obtain ⟨hllt, hload, rfl⟩ := load_of_drop hcolon
          rw [if_neg (Nat.ne_of_lt hllt), hload]
          dsimp only
          by_cases hcolon : c = 58
          swap
          · rw [if_pos hcolon, if_pos hcolon]
            exact ⟨.declined, rfl, Or.inl rfl⟩
          rw [if_neg (not_not.mpr hcolon), if_neg (not_not.mpr hcolon)]
          obtain ⟨start, hskip, hls, hs, hwhile⟩ := skip_follows space
            (show text.length - (l + 1) < text.length + 1 by omega) (Nat.succ_le_of_lt hllt)
          rw [hskip, hwhile]
          dsimp only
          by_cases hstart : start = text.length
          · have hnil : text.drop start = [] := List.drop_eq_nil_of_le (Nat.le_of_eq hstart.symm)
            rw [if_pos hstart, if_pos hnil]
            exact ⟨.declined, rfl, Or.inl rfl⟩
          have hslt : start < text.length := Nat.lt_of_le_of_ne hs hstart
          have hcons : text.drop start ≠ [] := fun hnil => by
            have := List.drop_eq_nil_iff.mp hnil
            omega
          rw [if_neg hstart, if_neg hcons]
          have hends := valueEndAt_ends hslt
          revert hends
          cases hend : valueEnd (text.drop start) with
          | none =>
            intro hrun
            have hrun : valueEndAt text start = .ok none := hrun
            rw [hrun]
            exact ⟨.error, rfl, Or.inl rfl⟩
          | some rest =>
            rintro ⟨next, hrun, hsn, hn, rfl⟩
            rw [hrun]
            dsimp only
            by_cases hkey : parsed = key
            swap
            · rw [if_pos hkey, if_pos hkey]
              exact ih (by omega) hn
            rw [if_neg (not_not.mpr hkey), if_neg (not_not.mpr hkey), before_drop hsn hn]
            exact valueAt_follows pool hslt hn hsn hend

theorem fieldAt_follows (pool : Pool) (body key : Str) : ∃ r, fieldAt pool body key = .ok r ∧
    (r = jsonField pool.isSome body key ∨ r = .error ∧ Refuses pool) := by
  rw [fieldAt, jsonField]
  split_ifs with hkey
  · exact ⟨.declined, rfl, Or.inl rfl⟩
  · exact fieldLoop_follows pool key (Nat.sub_le _ _) (Nat.zero_le _)

abbrev Place (text : Str) := {p : ℕ // p ≤ text.length}

theorem objectAt_follows (text : Str) (p : Place text) : ∃ r, objectAt text p = .ok r ∧
    match r with
    | .done _ => jsonObject (text.drop p) = .done
    | .error => jsonObject (text.drop p) = .error
    | .object item q =>
      q ≤ text.length ∧ jsonObject (text.drop p) = .object item (text.drop q) := by
  obtain ⟨p, hp⟩ := p
  obtain ⟨q, hskip, hpq, hq, hwhile⟩ := skip_follows (fun c => space c || c == 44)
    (show text.length - p < text.length + 1 by omega) hp
  unfold objectAt jsonObject
  rw [hskip, hwhile]
  simp only [bind, Except.bind, pure, Except.pure]
  by_cases hend : q = text.length
  · have hnil : text.drop q = [] := List.drop_eq_nil_of_le (Nat.le_of_eq hend.symm)
    rw [if_pos hend, if_pos hnil]
    exact ⟨.done q, rfl, rfl⟩
  have hqlt : q < text.length := Nat.lt_of_le_of_ne hq hend
  obtain ⟨c, hc⟩ : ∃ c, text.drop q = c :: text.drop (q + 1) :=
    ⟨_, List.drop_eq_getElem_cons hqlt⟩
  obtain ⟨-, hload, -⟩ := load_of_drop hc
  have hhead : (text.drop q).head? = some c := by
    rw [hc]
    rfl
  have hcons : text.drop q ≠ [] := by
    rw [hc]
    exact List.cons_ne_nil _ _
  rw [if_neg hend, if_neg hcons, hload, hhead]
  dsimp only
  by_cases hbrace : c = 123
  swap
  · rw [if_pos hbrace, if_pos (by simpa using hbrace)]
    exact ⟨.error, rfl, rfl⟩
  rw [if_neg (not_not.mpr hbrace), if_neg (by simpa using hbrace)]
  have hends := valueEndAt_ends hqlt
  revert hends
  cases valueEnd (text.drop q) with
  | none =>
    intro hrun
    have hrun : valueEndAt text q = .ok none := hrun
    rw [hrun]
    exact ⟨.error, rfl, rfl⟩
  | some rest =>
    rintro ⟨next, hrun, hle, hn, rfl⟩
    rw [hrun]
    refine ⟨.object (slice text q next) next, rfl, hn, ?_⟩
    rw [← before_drop hle hn]

def ample : Pool := some fun _ => true

theorem fieldAt_legible (key : Str) (lead gap : Blank) (members : List Member) (trail : Blank) :
    fieldAt ample (document lead gap members trail) key = .ok (wanted key members) ↔
      Legible true key members := by
  obtain ⟨r, hrun, hr⟩ := fieldAt_follows ample (document lead gap members trail) key
  have hread : r = jsonField true (document lead gap members trail) key := by
    rcases hr with hr | ⟨-, alloc, n, hpool, hfail⟩
    · exact hr
    · obtain rfl := Option.some.inj hpool
      cases hfail
  rw [hrun, hread, Except.ok.injEq]
  exact jsonField_legible true key lead gap members trail

/-- A look-up in the text of an object reads the first member with the name exactly when it is
legible. Whatever the bytes are, neither a look-up nor a walk over an array leaves its buffers, and
both end. -/
theorem fields_read_iff (key : Str) (lead gap : Blank) (members : List Member) (trail : Blank) :
    (fieldAt ample (document lead gap members trail) key = .ok (wanted key members) ↔
      Legible true key members) ∧
    (∀ pool body key, ∃ r, fieldAt pool body key = .ok r) ∧
    ∀ text (p : Place text), ∃ r, objectAt text p = .ok r := by
  refine ⟨fieldAt_legible key lead gap members trail, fun pool body key => ?_, fun text p => ?_⟩
  · obtain ⟨r, hrun, -⟩ := fieldAt_follows pool body key
    exact ⟨r, hrun⟩
  · obtain ⟨r, hrun, -⟩ := objectAt_follows text p
    exact ⟨r, hrun⟩

def noBlank : Blank := ⟨[], nofun⟩

def tight : Layout := ⟨noBlank, noBlank, noBlank, noBlank⟩

def longFirst : List Member :=
  [(tight, List.replicate 65 97, .integer 1), (tight, ascii "name", .string (ascii "live"))]

theorem long_key_hides_name :
    ¬ ∀ (key : Str) (lead gap : Blank) (members : List Member) (trail : Blank),
      fieldAt ample (document lead gap members trail) key = .ok (wanted key members) := by
  intro h
  have hread := (fieldAt_legible (ascii "name") noBlank noBlank longFirst noBlank).mp
    (h (ascii "name") noBlank noBlank longFirst noBlank)
  obtain ⟨-, hkeys, -⟩ := hread (tight, ascii "name", .string (ascii "live")) rfl
  have hlong := hkeys (tight, List.replicate 65 97, .integer 1) List.mem_cons_self
  exact absurd hlong (by decide)

end Pointers

end ApiJson

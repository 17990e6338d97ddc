import NginxMedia.HttpResponse

/-! The responses that an HTTP origin may send, and that the client reads each of them back
whichever way the transport cuts it. -/
namespace HttpFraming

open HttpResponse
open ByteString (ascii)

variable {a b w taken rest body : Bytes} {r : Reader} {p : UInt8 → Bool} {n cap fuel : ℕ}

/-- No byte that ends a line. -/
def Plain (w : Bytes) : Prop := ∀ c ∈ w, c ≠ 13 ∧ c ≠ 10 ∧ c ≠ 0

instance (w : Bytes) : Decidable (Plain w) := List.decidableBAll _ w

theorem plain_append : Plain (a ++ b) ↔ Plain a ∧ Plain b := List.forall_mem_append

theorem plain_cons {c : UInt8} : Plain (c :: w) ↔ (c ≠ 13 ∧ c ≠ 10 ∧ c ≠ 0) ∧ Plain w :=
  List.forall_mem_cons

theorem plain_of (h13 : p 13 = false) (h10 : p 10 = false) (h0 : p 0 = false)
    (h : ∀ c ∈ w, p c = true) : Plain w := by
  intro c hc
  have hin := h c hc
  refine ⟨?_, ?_, ?_⟩
  · rintro rfl
    rw [h13] at hin
    contradiction
  · rintro rfl
    rw [h10] at hin
    contradiction
  · rintro rfl
    rw [h0] at hin
    contradiction

def crlf : Bytes := [13, 10]

theorem line_read (htext : Plain w) (h : content r = w ++ (crlf ++ rest))
    (hroom : taken.length + w.length < lineMax) (budget : ℕ) :
    ∃ r', line (w.length + 2 + budget) taken r = .ok (taken ++ w, budget, r') ∧
      content r' = rest ∧ r'.fails = r.fails := by
  induction w generalizing taken r with
  | nil =>
    obtain ⟨r₁, hone, hcontent, hfails⟩ := next_cons h
    obtain ⟨r₂, htwo, hrest, hfails'⟩ := next_cons hcontent
    refine ⟨r₂, ?_, hrest, hfails'.trans hfails⟩
    rw [List.length_nil, Nat.zero_add, Nat.add_comm 2 budget, line, hone]
    dsimp only
    rw [if_pos rfl, htwo, List.append_nil]
    exact if_pos (by omega)
  | cons c w ih =>
    obtain ⟨⟨h13, h10, h0⟩, hplain⟩ := plain_cons.mp htext
    obtain ⟨r₁, hone, hcontent, hfails⟩ := next_cons h
    rw [List.length_cons] at hroom
    have hlonger : (taken ++ [c]).length + w.length < lineMax := by
      rw [List.length_append, List.length_singleton]
      omega
    obtain ⟨r₂, hline, hrest, hfails'⟩ := ih hplain hcontent hlonger
    refine ⟨r₂, ?_, hrest, hfails'.trans hfails⟩
    rw [List.length_cons, show w.length + 1 + 2 + budget = w.length + 2 + budget + 1 by omega, line,
      hone]
    dsimp only
    rw [if_neg h13, if_neg (by rintro (h | h | h) <;> first | contradiction | omega),
      if_pos (by omega), hline, List.append_assoc, List.singleton_append]

theorem fuel_succ (h : n < fuel) : ∃ k, fuel = k + 1 :=
  Nat.exists_eq_add_one_of_ne_zero (Nat.ne_zero_of_lt h)

theorem span_append (ha : ∀ c ∈ a, p c = true) (hb : ∀ c ∈ b.head?, p c = false) :
    (a ++ b).takeWhile p = a ∧ (a ++ b).dropWhile p = b := by
  rw [List.takeWhile_append_of_pos ha, List.dropWhile_append_of_pos ha]
  cases b with
  | nil => exact ⟨List.append_nil a, rfl⟩
  | cons c b =>
    have hc : p c = false := hb c rfl
    rw [List.takeWhile_cons_of_neg (by simp [hc]), List.dropWhile_cons_of_neg (by simp [hc])]
    exact ⟨List.append_nil a, rfl⟩

def Blank (w : Bytes) : Prop := ∀ c ∈ w, blank c = true

def Token (w : Bytes) : Prop := w ≠ [] ∧ ∀ c ∈ w, token c = true

def Printable (w : Bytes) : Prop := ∀ c ∈ w, control c = false

theorem Blank.plain (h : Blank w) : Plain w := plain_of rfl rfl rfl h

theorem Token.plain (h : Token w) : Plain w := plain_of (by decide) (by decide) (by decide) h.2

theorem Printable.plain (h : Printable w) : Plain w :=
  plain_of (p := fun c => !control c) rfl rfl rfl fun c hc => by rw [h c hc]; rfl

structure Field where
  name : Bytes
  lead : Bytes
  value : Bytes
  trail : Bytes
  named : Token name
  leads : Blank lead
  trails : Blank trail
  printable : Printable value
  trimmed : ∀ c, c ∈ value.head? ∨ c ∈ value.getLast? → blank c = false

def Field.line (f : Field) : Bytes := f.name ++ 58 :: (f.lead ++ (f.value ++ f.trail))

theorem Field.plain (f : Field) : Plain f.line := by
  refine plain_append.mpr ⟨f.named.plain, plain_cons.mpr ⟨by decide, ?_⟩⟩
  exact plain_append.mpr ⟨f.leads.plain, plain_append.mpr ⟨f.printable.plain, f.trails.plain⟩⟩

theorem field_text (f : Field) : field f.line = some (f.name, f.value) := by
  obtain ⟨hname, hbehind⟩ := span_append (b := 58 :: (f.lead ++ (f.value ++ f.trail))) f.named.2
    fun c hc => by cases hc; decide
  have hprintable : (f.lead ++ (f.value ++ f.trail)).any control = false := by
    have hblank : ∀ {w : Bytes}, Blank w → ∀ c ∈ w, control c = false := fun h c hc => by
      have hor : c = 32 ∨ c = 9 := of_decide_eq_true (h c hc)
      rcases hor with rfl | rfl <;> rfl
    rw [List.any_eq_false]
    simp only [List.mem_append]
    rintro c (hc | hc | hc)
    · simp [hblank f.leads c hc]
    · simp [f.printable c hc]
    · simp [hblank f.trails c hc]
  have htrimmed : ((f.lead ++ (f.value ++ f.trail)).dropWhile blank).rdropWhile blank =
      f.value := by
    rw [List.dropWhile_append_of_pos f.leads]
    by_cases hempty : f.value = []
    · rw [hempty, List.nil_append, List.dropWhile_eq_nil_iff.mpr f.trails, List.rdropWhile_nil]
    · have hhead : (f.value ++ f.trail).dropWhile blank = f.value ++ f.trail :=
        (span_append (a := []) (b := f.value ++ f.trail) nofun fun c hc =>
          f.trimmed c (Or.inl (by rwa [List.head?_append_of_ne_nil _ hempty] at hc))).2
      have hlast : (f.trail.reverse ++ f.value.reverse).dropWhile blank = f.value.reverse :=
        (span_append (fun c hc => f.trails c (List.mem_reverse.mp hc)) fun c hc =>
          f.trimmed c (Or.inr (by rwa [List.head?_reverse] at hc))).2
      rw [hhead, List.rdropWhile, List.reverse_append, hlast, List.reverse_reverse]
  unfold field Field.line
  rw [hbehind, hname]
  change (if f.name = [] ∨ (f.lead ++ (f.value ++ f.trail)).any control = true then none
    else some (f.name,
      ((f.lead ++ (f.value ++ f.trail)).dropWhile blank).rdropWhile blank)) = _
  rw [hprintable, htrimmed]
  exact if_neg (by simp [f.named.1])

def valueOf (base : ℕ) (digit : UInt8 → Option ℕ) (n : ℕ) (w : Bytes) : ℕ :=
  w.foldl (fun n c => n * base + (digit c).getD 0) n

/-- A numeral for `n`; leading zeros are legal. -/
structure Numeral (base : ℕ) (digit : UInt8 → Option ℕ) (w : Bytes) (n : ℕ) : Prop where
  nonempty : w ≠ []
  digits : ∀ c ∈ w, (digit c).isSome
  value : valueOf base digit 0 w = n

variable {base m : ℕ} {digit : UInt8 → Option ℕ}

theorem le_valueOf (hbase : 0 < base) (n : ℕ) (w : Bytes) : n ≤ valueOf base digit n w := by
  induction w generalizing n with
  | nil => exact Nat.le_refl n
  | cons c w ih =>
    refine (Nat.le_trans ?_ (Nat.le_add_right _ _)).trans (ih _)
    exact Nat.le_mul_of_pos_right n hbase

theorem numeral_read (hbase : 0 < base) (hdigits : ∀ c ∈ w, (digit c).isSome)
    (hfits : valueOf base digit n w < 2 ^ 64) (hrest : ∀ c ∈ rest.head?, digit c = none) :
    numeral base digit n (w ++ rest) = some (valueOf base digit n w, rest) := by
  induction w generalizing n with
  | nil =>
    cases rest with
    | nil => rfl
    | cons c rest =>
      rw [List.nil_append, numeral, hrest c rfl]
      rfl
  | cons c w ih =>
    obtain ⟨hc, hw⟩ := List.forall_mem_cons.mp hdigits
    obtain ⟨d, hd⟩ := Option.isSome_iff_exists.mp hc
    have hstep : valueOf base digit n (c :: w) = valueOf base digit (n * base + d) w := by
      rw [valueOf, List.foldl_cons, hd]
      rfl
    rw [hstep] at hfits ⊢
    have hle := @le_valueOf base digit hbase (n * base + d) w
    have hroom : n ≤ (2 ^ 64 - 1 - d) / base := by
      rw [Nat.le_div_iff_mul_le hbase]
      omega
    rw [List.cons_append, numeral, hd]
    dsimp only
    rw [if_neg (Nat.not_lt.mpr hroom), ih hw hfits]

theorem number_read (h : Numeral base digit w n) (hbase : 0 < base) (hfits : n < 2 ^ 64)
    (hrest : ∀ c ∈ rest.head?, digit c = none) :
    number base digit (w ++ rest) = some (n, rest) := by
  obtain ⟨hne, hdigits, rfl⟩ := h
  have hhead : (w ++ rest).head?.bind digit ≠ none := by
    cases w with
    | nil => exact absurd rfl hne
    | cons c w =>
      exact Option.isSome_iff_ne_none.mp (hdigits c List.mem_cons_self)
  rw [number, if_neg hhead, numeral_read hbase hdigits hfits hrest]

/-- The texts of a list, with commas between them. -/
inductive Listed (item : Bytes → Prop) : Bytes → List Bytes → Prop where
  | last {o : Bytes} : item o → Listed item o [o]
  | more {o before after w : Bytes} {os : List Bytes} : item o → Blank before → Blank after →
      Listed item w os → Listed item (o ++ (before ++ 44 :: (after ++ w))) (o :: os)

theorem token_head (h : Token w) (b : Bytes) : ∀ c ∈ (w ++ b).head?, token c = true := by
  intro c hc
  rw [List.head?_append_of_ne_nil _ h.1] at hc
  exact h.2 c (List.mem_of_mem_head? hc)

theorem token_not_blank {c : UInt8} (h : token c = true) : blank c = false := by
  by_contra hblank
  have hor : c = 32 ∨ c = 9 := of_decide_eq_true (Bool.eq_true_of_not_eq_false hblank)
  rcases hor with rfl | rfl <;> exact absurd h (by decide)

theorem blank_not_token {c : UInt8} (h : blank c = true) : token c = false := by
  by_contra htoken
  rw [token_not_blank (Bool.eq_true_of_not_eq_false htoken)] at h
  contradiction

theorem token_stop {d : UInt8} (h : Blank a) (hd : token d = false) (b : Bytes) :
    ∀ c ∈ (a ++ d :: b).head?, token c = false := by
  intro c hc
  cases a with
  | nil =>
    cases hc
    exact hd
  | cons e a =>
    cases hc
    exact blank_not_token (h _ List.mem_cons_self)

theorem blanks_dropped {d : UInt8} (h : Blank a) (hd : blank d = false) (b : Bytes) :
    (a ++ d :: b).dropWhile blank = d :: b :=
  (span_append h fun c hc => by cases hc; exact hd).2

theorem Listed.head {item : Bytes → Prop} {os : List Bytes} (h : Listed item w os)
    (hitem : ∀ o, item o → Token o) : ∀ c ∈ w.head?, blank c = false := by
  intro c hc
  cases h with
  | last ho =>
    exact token_not_blank (token_head (hitem _ ho) [] c (by rwa [List.append_nil]))
  | more ho => exact token_not_blank (token_head (hitem _ ho) _ c hc)

theorem connection_read {os : List Bytes} (h : Listed Token w os) (fields : Fields)
    (hfuel : w.length < fuel) :
    connection fuel w fields = .ok (os.foldl Fields.option fields) := by
  induction h generalizing fields fuel with
  | @last o ho =>
    obtain ⟨fuel, rfl⟩ := fuel_succ hfuel
    obtain ⟨htake, hdrop⟩ := span_append (b := []) ho.2 nofun
    rw [List.append_nil] at htake hdrop
    rw [connection, htake, hdrop, if_neg ho.1]
    rfl
  | @more o before after w os ho hbefore hafter hw ih =>
    obtain ⟨fuel, rfl⟩ := fuel_succ hfuel
    obtain ⟨htake, hdrop⟩ := span_append ho.2
      (token_stop (d := 44) hbefore (by decide) (after ++ w))
    have hcomma := blanks_dropped hbefore (d := 44) rfl (after ++ w)
    have hlist := (span_append hafter (hw.head fun _ ho => ho)).2
    rw [connection, htake, hdrop, if_neg ho.1, hcomma]
    simp only [List.length_append, List.length_cons] at hfuel
    change connection fuel ((after ++ w).dropWhile blank) (fields.option o) = _
    rw [hlist, ih (fields.option o) (by omega), List.foldl_cons]

theorem token_of_decimalDigit {c : UInt8} (h : (decimalDigit c).isSome) : token c = true := by
  unfold decimalDigit at h
  unfold token
  rw [decide_eq_true_iff]
  split_ifs at h with hdigit
  · exact Or.inr (Or.inr (Or.inl hdigit))
  · contradiction

theorem numeral_token {o : Bytes} (h : Numeral 10 decimalDigit o n) : Token o :=
  ⟨h.nonempty, fun c hc => token_of_decimalDigit (h.digits c hc)⟩

theorem stop_not_digit {c : UInt8} (h : token c = false) : decimalDigit c = none := by
  by_contra hsome
  rw [token_of_decimalDigit (Option.isSome_iff_ne_none.mpr hsome)] at h
  contradiction

/-- A length that is given once or several times over. -/
theorem contentLength_read {os : List Bytes} (h : Listed (Numeral 10 decimalDigit · n) w os)
    (hfits : n < 2 ^ 64) {seen : Option ℕ} (hseen : ∀ k ∈ seen, k = n)
    (hfuel : w.length < fuel) : contentLength fuel w seen = .ok n := by
  have hsame : ∀ {seen : Option ℕ}, (∀ k ∈ seen, k = n) → seen.any (· ≠ n) = false := by
    intro seen hseen
    cases seen with
    | none => rfl
    | some k => simp [hseen k rfl]
  induction h generalizing seen fuel with
  | @last o ho =>
    obtain ⟨fuel, rfl⟩ := fuel_succ hfuel
    have hread : number 10 decimalDigit (o ++ []) = some (n, []) :=
      number_read ho (by decide) hfits nofun
    rw [List.append_nil] at hread
    rw [contentLength, hread]
    dsimp only
    rw [hsame hseen]
    rfl
  | @more o before after w os ho hbefore hafter hw ih =>
    obtain ⟨fuel, rfl⟩ := fuel_succ hfuel
    have hread := number_read ho (by decide) hfits fun c hc =>
      stop_not_digit (token_stop (d := 44) hbefore (by decide) (after ++ w) c hc)
    have hcomma := blanks_dropped hbefore (d := 44) rfl (after ++ w)
    have hlist := (span_append hafter (hw.head fun _ => numeral_token)).2
    simp only [List.length_append, List.length_cons] at hfuel
    rw [contentLength, hread]
    dsimp only
    rw [hsame hseen, if_neg Bool.false_ne_true, hcomma]
    change contentLength fuel ((after ++ w).dropWhile blank) (some n) = _
    rw [hlist]
    exact ih (fun k hk => (Option.some.inj hk).symm) (by omega)

/-- What a chunk extension's name may be given. The bytes of a quoted string are escaped or not. -/
inductive Value where
  | word (w : Bytes)
  | quote (items : List (Bool × UInt8))

def Value.line : Value → Bytes
  | .word w => w
  | .quote items =>
    34 :: (items.flatMap (fun item => if item.1 then [92, item.2] else [item.2]) ++ [34])

def Value.Legal : Value → Prop
  | .word w => Token w
  | .quote items => ∀ item ∈ items, control item.2 = false ∧
      (item.1 = false → item.2 ≠ 34 ∧ item.2 ≠ 92)

structure Extension where
  before : Bytes
  after : Bytes
  name : Bytes
  value : Option (Bytes × Bytes × Value)

def Extension.tail (e : Extension) : Bytes :=
  match e.value with
  | none => []
  | some (before, after, value) => before ++ 61 :: (after ++ value.line)

def Extension.line (e : Extension) : Bytes :=
  e.before ++ 59 :: (e.after ++ (e.name ++ e.tail))

structure Extension.Legal (e : Extension) : Prop where
  before : Blank e.before
  after : Blank e.after
  name : Token e.name
  value : ∀ v ∈ e.value, Blank v.1 ∧ Blank v.2.1 ∧ v.2.2.Legal

theorem quoted_read {items : List (Bool × UInt8)} (h : (Value.quote items).Legal) (b : Bytes) :
    quoted (items.flatMap (fun item => if item.1 then [92, item.2] else [item.2]) ++ 34 :: b) =
      some b := by
  induction items with
  | nil =>
    unfold quoted
    rfl
  | cons item items ih =>
    obtain ⟨⟨hcontrol, hplain⟩, hitems⟩ := List.forall_mem_cons.mp h
    obtain ⟨escaped, c⟩ := item
    have hrest := ih hitems
    cases escaped with
    | true =>
      rw [List.flatMap_cons, if_pos rfl, List.append_assoc, List.cons_append, List.singleton_append]
      unfold quoted
      dsimp only at hcontrol ⊢
      rw [if_neg (by decide), if_pos rfl, hcontrol, if_neg Bool.false_ne_true, hrest]
    | false =>
      obtain ⟨h34, h92⟩ := hplain rfl
      rw [List.flatMap_cons, if_neg Bool.false_ne_true, List.append_assoc, List.singleton_append]
      dsimp only at h34 h92 hcontrol ⊢
      unfold quoted
      rw [if_neg h34, if_neg h92, hcontrol, if_neg Bool.false_ne_true, hrest]

theorem extensionValue_read {v : Value} (h : v.Legal) (hb : ∀ c ∈ b.head?, token c = false) :
    extensionValue (v.line ++ b) = some b := by
  cases v with
  | word w =>
    obtain ⟨htake, hdrop⟩ := span_append (b := b) h.2 hb
    have hhead := token_head h b
    change extensionValue (w ++ b) = _
    unfold extensionValue
    split
    · next rest hquote =>
      rw [hquote] at hhead
      exact absurd (hhead 34 rfl) (by decide)
    · rw [htake, hdrop, if_neg h.1]
  | quote items =>
    change quoted ((items.flatMap _ ++ [34]) ++ b) = _
    rw [List.append_assoc, List.singleton_append]
    exact quoted_read h b

theorem extension_bare (hw : w.dropWhile blank = 59 :: rest)
    (hname : (rest.dropWhile blank).takeWhile token ≠ [])
    (hbehind : ∀ c ∈ (((rest.dropWhile blank).dropWhile token).dropWhile blank).head?, c ≠ 61) :
    extension w = some (((rest.dropWhile blank).dropWhile token).dropWhile blank) := by
  unfold extension
  rw [hw]
  change (if (rest.dropWhile blank).takeWhile token = [] then none else _) = _
  rw [if_neg hname]
  split
  · next hequals => exact absurd rfl (hbehind 61 (by rw [hequals]; rfl))
  · rfl

theorem extension_valued {value : Bytes} (hw : w.dropWhile blank = 59 :: rest)
    (hname : (rest.dropWhile blank).takeWhile token ≠ [])
    (hbehind : ((rest.dropWhile blank).dropWhile token).dropWhile blank = 61 :: value) :
    extension w = extensionValue (value.dropWhile blank) := by
  unfold extension
  rw [hw]
  change (if (rest.dropWhile blank).takeWhile token = [] then none else _) = _
  rw [if_neg hname, hbehind]
  rfl

theorem extension_read {e : Extension} (h : e.Legal)
    (htoken : ∀ c ∈ b.head?, token c = false) (hnext : ∀ c ∈ (b.dropWhile blank).head?, c ≠ 61) :
    ∃ rest, (rest = b ∨ rest = b.dropWhile blank) ∧ extension (e.line ++ b) = some rest ∧
      extension ((e.line ++ b).dropWhile blank) = some rest := by
  have hfront : (e.line ++ b).dropWhile blank =
      59 :: (e.after ++ (e.name ++ (e.tail ++ b))) := by
    rw [Extension.line, List.append_assoc, List.cons_append, List.append_assoc, List.append_assoc]
    exact blanks_dropped h.before rfl _
  have hagain : ((e.line ++ b).dropWhile blank).dropWhile blank = (e.line ++ b).dropWhile blank :=
    List.dropWhile_idempotent blank _
  have hafter : (e.after ++ (e.name ++ (e.tail ++ b))).dropWhile blank = e.name ++ (e.tail ++ b) :=
    (span_append h.after fun c hc => token_not_blank (token_head h.name _ c hc)).2
  obtain ⟨hstop, rest, hor, hrest⟩ : (∀ c ∈ (e.tail ++ b).head?, token c = false) ∧
      ∃ rest, (rest = b ∨ rest = b.dropWhile blank) ∧
        ∀ w more, w.dropWhile blank = 59 :: more → (more.dropWhile blank).takeWhile token ≠ [] →
          (more.dropWhile blank).dropWhile token = e.tail ++ b → extension w = some rest := by
    cases hvalue : e.value with
    | none =>
      have htail : e.tail = [] := by rw [Extension.tail, hvalue]
      rw [htail]
      refine ⟨htoken, _, Or.inr rfl, fun w more hw hname hbehind => ?_⟩
      rw [List.nil_append] at hbehind
      rw [extension_bare hw hname (by rwa [hbehind]), hbehind]
    | some v =>
      obtain ⟨before, after, v⟩ := v
      obtain ⟨hbefore, hafter, hv⟩ := h.value _ hvalue
      have htail : e.tail ++ b = before ++ 61 :: (after ++ (v.line ++ b)) := by
        rw [Extension.tail, hvalue]
        simp
      rw [htail]
      refine ⟨token_stop hbefore (by decide) _, b, Or.inl rfl, fun w more hw hname hbehind => ?_⟩
      have hline : (after ++ (v.line ++ b)).dropWhile blank = v.line ++ b := by
        refine (span_append hafter fun c hc => ?_).2
        cases v with
        | word w => exact token_not_blank (token_head hv b c hc)
        | quote items =>
          cases hc
          rfl
      rw [extension_valued hw hname (by rw [hbehind, blanks_dropped hbefore rfl]), hline]
      exact extensionValue_read hv htoken
  obtain ⟨hname, hbehind⟩ := span_append h.name.2 hstop
  have hread : ∀ w, w.dropWhile blank = 59 :: (e.after ++ (e.name ++ (e.tail ++ b))) →
      extension w = some rest := by
    intro w hw
    refine hrest w _ hw ?_ ?_
    · rw [hafter, hname]
      exact h.name.1
    · rw [hafter, hbehind]
  exact ⟨rest, hor, hread _ hfront, hread _ (hagain.trans hfront)⟩

theorem extension_head {e : Extension} (h : e.Legal) (b : Bytes) :
    (∀ c ∈ (e.line ++ b).head?, token c = false) ∧
      ((e.line ++ b).dropWhile blank).head? = some 59 := by
  have hline : e.line ++ b = e.before ++ 59 :: (e.after ++ (e.name ++ e.tail) ++ b) := by
    simp [Extension.line]
  rw [hline]
  exact ⟨token_stop h.before (by decide) _, by rw [blanks_dropped h.before rfl]; rfl⟩

theorem extensions_read {es : List Extension} (h : ∀ e ∈ es, e.Legal)
    (hw : w = es.flatMap Extension.line ∨ w = (es.flatMap Extension.line).dropWhile blank)
    (hfuel : w.length ≤ fuel) : extensions fuel w = .ok () := by
  induction es generalizing w fuel with
  | nil =>
    have hnil : w = [] := by rcases hw with rfl | rfl <;> rfl
    rw [hnil]
    cases fuel <;> rfl
  | cons e es ih =>
    obtain ⟨he, hes⟩ := List.forall_mem_cons.mp h
    rw [List.flatMap_cons] at hw
    obtain ⟨htoken, hnext⟩ : (∀ c ∈ (es.flatMap Extension.line).head?, token c = false) ∧
        ∀ c ∈ ((es.flatMap Extension.line).dropWhile blank).head?, c ≠ 61 := by
      cases es with
      | nil => exact ⟨nofun, nofun⟩
      | cons e' es =>
        obtain ⟨hstop, hsemicolon⟩ := extension_head (hes e' List.mem_cons_self)
          (es.flatMap Extension.line)
        rw [List.flatMap_cons, hsemicolon]
        refine ⟨hstop, fun c hc => ?_⟩
        cases hc
        decide
    obtain ⟨rest, hor, hread, hread'⟩ := extension_read he htoken hnext
    have hextension : extension w = some rest := by
      rcases hw with rfl | rfl
      · exact hread
      · exact hread'
    have hlength := extension_length hextension
    obtain ⟨c, w, rfl⟩ := List.exists_cons_of_ne_nil
      (List.ne_nil_of_length_pos (Nat.zero_lt_of_lt hlength))
    cases fuel with
    | zero => simp at hfuel
    | succ fuel =>
      simp only [extensions, hextension]
      exact ih hes hor (by omega)

/-- A chunk: the digits of its size, the extensions, and what it carries. -/
structure Chunk where
  digits : Bytes
  extensions : List Extension
  data : Bytes
  sized : Numeral 16 hexDigit digits data.length
  legal : ∀ e ∈ extensions, e.Legal

def Chunk.line (c : Chunk) : Bytes := c.digits ++ c.extensions.flatMap Extension.line

theorem token_of_hexDigit {c : UInt8} (h : (hexDigit c).isSome) : token c = true := by
  unfold hexDigit at h
  unfold token
  rw [decide_eq_true_iff]
  split_ifs at h with hdigit hlower hupper
  · exact Or.inr (Or.inr (Or.inl hdigit))
  · exact Or.inl ⟨hlower.1, UInt8.le_trans hlower.2 (by decide)⟩
  · exact Or.inr (Or.inl ⟨hupper.1, UInt8.le_trans hupper.2 (by decide)⟩)
  · contradiction

theorem chunkSize_read (c : Chunk) (hfits : c.data.length < 2 ^ 64) :
    chunkSize c.line = .ok c.data.length := by
  have hstop : ∀ x ∈ (c.extensions.flatMap Extension.line).head?, hexDigit x = none := by
    intro x hx
    by_contra hsome
    have htoken := token_of_hexDigit (Option.isSome_iff_ne_none.mpr hsome)
    cases hes : c.extensions with
    | nil =>
      rw [hes] at hx
      cases hx
    | cons e es =>
      rw [hes, List.flatMap_cons] at hx
      rw [(extension_head (c.legal e (hes ▸ List.mem_cons_self)) _).1 x hx] at htoken
      contradiction
  have hread := number_read c.sized (by decide) hfits hstop
  rw [chunkSize, Chunk.line, hread]
  dsimp only
  rw [extensions_read c.legal (Or.inl rfl) (Nat.le_refl _)]
  rfl

theorem Value.Legal.plain {v : Value} (h : v.Legal) : Plain v.line := by
  cases v with
  | word w => exact Token.plain h
  | quote items =>
    refine plain_cons.mpr ⟨by decide, plain_append.mpr ⟨?_, plain_cons.mpr ⟨by decide, nofun⟩⟩⟩
    intro c hc
    obtain ⟨item, hitem, hc⟩ := List.mem_flatMap.mp hc
    have hone : Plain [item.2] :=
      Printable.plain (List.forall_mem_singleton.mpr (h item hitem).1)
    split_ifs at hc
    · exact plain_cons.mpr ⟨by decide, hone⟩ c hc
    · exact hone c hc

theorem Extension.Legal.plain {e : Extension} (h : e.Legal) : Plain e.line := by
  have htail : Plain e.tail := by
    unfold Extension.tail
    split
    · exact nofun
    · next before after v hvalue =>
      obtain ⟨hbefore, hafter, hv⟩ := h.value _ hvalue
      exact plain_append.mpr ⟨hbefore.plain, plain_cons.mpr ⟨by decide,
        plain_append.mpr ⟨hafter.plain, hv.plain⟩⟩⟩
  exact plain_append.mpr ⟨h.before.plain, plain_cons.mpr ⟨by decide,
    plain_append.mpr ⟨h.after.plain, plain_append.mpr ⟨h.name.plain, htail⟩⟩⟩⟩

theorem Chunk.plain (c : Chunk) : Plain c.line := by
  refine plain_append.mpr ⟨?_, fun x hx => ?_⟩
  · exact Token.plain ⟨c.sized.nonempty, fun x hx => token_of_hexDigit (c.sized.digits x hx)⟩
  · obtain ⟨e, he, hx⟩ := List.mem_flatMap.mp hx
    exact (c.legal e he).plain x hx

variable {fails : Bool} {data : Bytes} {reads : List (UInt8 × Bytes)}

theorem at_hand (hle : w.length ≤ data.length) (h : content ⟨data, reads, fails⟩ = w ++ rest) :
    data.take w.length = w ∧ content ⟨data.drop w.length, reads, fails⟩ = rest := by
  obtain ⟨t, rfl⟩ : w <+: data := List.prefix_of_prefix_length_le ⟨rest, h.symm⟩
    (List.prefix_append data _) hle
  rw [content, List.append_assoc] at h
  rw [List.take_left, List.drop_left]
  exact ⟨rfl, List.append_cancel_left h⟩

theorem copy_read (h : content ⟨data, reads, fails⟩ = w ++ rest)
    (hroom : body.length + w.length ≤ cap) :
    ∃ r', copy cap fails w.length body data reads = .ok (body ++ w, r') ∧
      content r' = rest ∧ r'.fails = fails := by
  induction reads generalizing body data w with
  | nil =>
    have hle : w.length ≤ data.length := by
      have := congrArg List.length h
      simp only [content, List.flatMap_nil, List.length_append, List.length_nil] at this
      omega
    obtain ⟨htake, hcontent⟩ := at_hand hle h
    refine ⟨_, ?_, hcontent, rfl⟩
    rw [copy, htake, store_safe hroom]
    exact if_pos hle
  | cons read reads ih =>
    obtain ⟨c, more⟩ := read
    by_cases hle : w.length ≤ data.length
    · obtain ⟨htake, hcontent⟩ := at_hand hle h
      refine ⟨_, ?_, hcontent, rfl⟩
      rw [copy, htake, store_safe hroom]
      exact if_pos hle
    · obtain ⟨t, rfl⟩ : data <+: w := List.prefix_of_prefix_length_le (List.prefix_append data _)
        ⟨rest, h.symm⟩ (by omega)
      rw [content, List.append_assoc] at h
      rw [List.length_append] at hroom
      have hrest : content ⟨c :: more, reads, fails⟩ = t ++ rest := List.append_cancel_left h
      have hsum : (body ++ data).length + t.length ≤ cap := by
        rw [List.length_append]
        omega
      obtain ⟨r', hcopy, hcontent, hfails⟩ := ih hrest hsum
      refine ⟨r', ?_, hcontent, hfails⟩
      rw [copy, List.take_of_length_le (by omega), store_safe (by omega)]
      refine (if_neg hle).trans ?_
      rw [List.length_append, Nat.add_sub_cancel_left, hcopy, List.append_assoc]

theorem bytes_read (h : content r = w ++ rest) (hroom : body.length + w.length ≤ cap) :
    ∃ r', bytes cap w.length body r = .ok (body ++ w, r') ∧ content r' = rest ∧
      r'.fails = r.fails := by
  obtain ⟨r', hcopy, hrest⟩ := copy_read h hroom
  refine ⟨r', ?_, hrest⟩
  rw [bytes, if_neg (by omega)]
  exact hcopy

theorem content_nil (h : content r = []) : r.data = [] := (List.append_eq_nil_iff.mp h).1

theorem untilClose_read (h : content ⟨data, reads, false⟩ = w)
    (hroom : body.length + w.length ≤ cap) :
    ∃ r', untilClose cap false body data reads = .ok (body ++ w, r') ∧ content r' = [] := by
  induction reads generalizing body data w with
  | nil =>
    rw [content, List.flatMap_nil, List.append_nil] at h
    obtain rfl : data = w := h
    have hall : content ⟨data, [], false⟩ = data ++ [] := rfl
    obtain ⟨r', hbytes, hcontent, -⟩ := bytes_read hall hroom
    refine ⟨r', ?_, hcontent⟩
    rw [untilClose, hbytes]
    rfl
  | cons read reads ih =>
    obtain ⟨c, more⟩ := read
    obtain rfl : data ++ content ⟨c :: more, reads, false⟩ = w := h
    rw [List.length_append] at hroom
    have hall : content ⟨data, (c, more) :: reads, false⟩ =
        data ++ content ⟨c :: more, reads, false⟩ := rfl
    have hfirst : body.length + data.length ≤ cap := by omega
    obtain ⟨r', hbytes, -⟩ := bytes_read hall hfirst
    have hsum : (body ++ data).length + (content ⟨c :: more, reads, false⟩).length ≤ cap := by
      rw [List.length_append]
      omega
    obtain ⟨r'', hclose, hempty⟩ := ih rfl hsum
    refine ⟨r'', ?_, hempty⟩
    rw [untilClose, hbytes]
    exact hclose.trans (by rw [List.append_assoc])

def Chunk.bytes (c : Chunk) : Bytes := c.line ++ (crlf ++ (c.data ++ crlf))

theorem within_read {budget : ℕ} (htext : Plain w) (h : content r = w ++ (crlf ++ rest))
    (hroom : w.length < lineMax) (hbudget : w.length + 2 ≤ budget) :
    ∃ r', line budget [] r = .ok (w, budget - (w.length + 2), r') ∧ content r' = rest ∧
      r'.fails = r.fails := by
  obtain ⟨left, rfl⟩ := Nat.exists_eq_add_of_le hbudget
  have hshort : ([] : Bytes).length + w.length < lineMax := by
    rwa [List.length_nil, Nat.zero_add]
  obtain ⟨r', hline, hrest⟩ := line_read htext h hshort left
  refine ⟨r', ?_, hrest⟩
  rw [hline, Nat.add_sub_cancel_left, List.nil_append]

theorem chunkLoop_read {chunks : List Chunk} {last : Chunk}
    (hchunks : ∀ c ∈ chunks, c.data ≠ []) (hlast : last.data = [])
    (hlines : ∀ c ∈ chunks ++ [last], c.line.length + 2 ≤ lineMax)
    (hroom : body.length + (chunks.flatMap Chunk.data).length ≤ cap) (hcap : cap < 2 ^ 64)
    (h : content r = chunks.flatMap Chunk.bytes ++ (last.line ++ (crlf ++ rest)))
    (hfuel : chunks.length < fuel) :
    ∃ r', chunkLoop cap fuel body r = .ok (body ++ chunks.flatMap Chunk.data, r') ∧
      content r' = rest ∧ r'.fails = r.fails := by
  induction chunks generalizing body r fuel with
  | nil =>
    obtain ⟨fuel, rfl⟩ := fuel_succ hfuel
    have hline := hlines last (List.mem_append_right _ List.mem_cons_self)
    obtain ⟨r', hread, hrest⟩ := within_read last.plain h (by omega) hline
    have hsize := chunkSize_read last (by rw [hlast]; decide)
    refine ⟨r', ?_, hrest⟩
    rw [chunkLoop, hread]
    change (chunkSize last.line >>= _) = _
    rw [hsize, hlast, List.flatMap_nil, List.append_nil]
    rfl
  | cons c chunks ih =>
    obtain ⟨fuel, rfl⟩ := fuel_succ hfuel
    obtain ⟨hdata, hchunks⟩ := List.forall_mem_cons.mp hchunks
    obtain ⟨hline, hlines⟩ := List.forall_mem_cons.mp hlines
    rw [List.flatMap_cons, List.length_append] at hroom
    rw [List.flatMap_cons, Chunk.bytes] at h
    simp only [List.append_assoc] at h
    obtain ⟨r₁, hread, hcontent, hfails⟩ := within_read c.plain h (by omega) hline
    have hfirst : body.length + c.data.length ≤ cap := by omega
    obtain ⟨r₂, hbytes, hcontent, hfails₂⟩ := bytes_read hcontent hfirst
    have htwo : ([] : Bytes).length + 2 ≤ 2 := by decide
    obtain ⟨r₃, hend, hcontent, hfails₃⟩ := within_read (w := []) nofun hcontent (by decide) htwo
    have hsum : (body ++ c.data).length + (chunks.flatMap Chunk.data).length ≤ cap := by
      rw [List.length_append]
      omega
    obtain ⟨r₄, hloop, hrest, hfails₄⟩ := ih hchunks hlines hsum hcontent
      (Nat.lt_of_succ_lt_succ hfuel)
    refine ⟨r₄, ?_, hrest, hfails₄.trans (hfails₃.trans (hfails₂.trans hfails))⟩
    rw [chunkLoop, hread]
    change (chunkSize c.line >>= _) = _
    rw [chunkSize_read c (by omega)]
    have hsome : ¬ c.data.length = 0 := by rwa [List.length_eq_zero_iff]
    refine (if_neg hsome).trans ?_
    rw [hbytes]
    change (line 2 [] r₂ >>= _) = _
    rw [hend, List.flatMap_cons, ← List.append_assoc]
    exact hloop

def block : List Field → Bytes
  | [] => crlf
  | f :: fs => f.line ++ (crlf ++ block fs)

theorem Field.line_ne_nil (f : Field) : f.line ≠ [] :=
  List.append_ne_nil_of_left_ne_nil f.named.1 _

def reserved (f : Field) : Bool :=
  same f.name "Content-Length" || same f.name "Transfer-Encoding" || same f.name "Connection"

theorem block_length (f : Field) (fs : List Field) :
    (block (f :: fs)).length = f.line.length + 2 + (block fs).length := by
  rw [block, List.length_append, List.length_append, Nat.add_assoc]
  rfl

theorem block_read {f : Field} {fs : List Field} {budget : ℕ}
    (h : content r = block (f :: fs) ++ rest) (hroom : f.line.length < lineMax)
    (hbudget : (block (f :: fs)).length ≤ budget) :
    ∃ r', line budget [] r = .ok (f.line, budget - (f.line.length + 2), r') ∧
      content r' = block fs ++ rest ∧ r'.fails = r.fails ∧
      (block fs).length ≤ budget - (f.line.length + 2) := by
  rw [block_length] at hbudget
  rw [block, List.append_assoc, List.append_assoc] at h
  have hone : f.line.length + 2 ≤ budget := by omega
  obtain ⟨r', hline, hcontent, hfails⟩ := within_read f.plain h hroom hone
  exact ⟨r', hline, hcontent, hfails, by omega⟩

theorem trailerLoop_read {fs : List Field} {budget : ℕ} (hfs : ∀ f ∈ fs, reserved f = false)
    (hlines : ∀ f ∈ fs, f.line.length < lineMax) (h : content r = block fs ++ rest)
    (hbudget : (block fs).length ≤ budget) (hfuel : fs.length < fuel) :
    ∃ r', trailerLoop fuel budget r = .ok r' ∧ content r' = rest ∧ r'.fails = r.fails := by
  induction fs generalizing budget r fuel with
  | nil =>
    obtain ⟨fuel, rfl⟩ := fuel_succ hfuel
    obtain ⟨r', hline, hrest⟩ := within_read (w := []) nofun h (by decide) hbudget
    refine ⟨r', ?_, hrest⟩
    rw [trailerLoop, hline]
    rfl
  | cons f fs ih =>
    obtain ⟨fuel, rfl⟩ := fuel_succ hfuel
    obtain ⟨hf, hfs⟩ := List.forall_mem_cons.mp hfs
    obtain ⟨hroom, hlines⟩ := List.forall_mem_cons.mp hlines
    obtain ⟨r₁, hline, hcontent, hfails, hmore⟩ := block_read h hroom hbudget
    obtain ⟨r₂, hloop, hrest, hfails₂⟩ := ih hfs hlines hcontent hmore
      (Nat.lt_of_succ_lt_succ hfuel)
    refine ⟨r₂, ?_, hrest, hfails₂.trans hfails⟩
    rw [trailerLoop, hline]
    refine (if_neg f.line_ne_nil).trans ?_
    rw [field_text]
    refine (if_neg ?_).trans hloop
    rw [← reserved, hf]
    exact Bool.false_ne_true

inductive Absorbs (version : Bool) : Fields → List Field → Fields → Prop where
  | nil (fields : Fields) : Absorbs version fields [] fields
  | cons {fields fields' fields'' : Fields} {f : Field} {fs : List Field} :
      takeField version fields f.name f.value = .ok fields' →
      Absorbs version fields' fs fields'' → Absorbs version fields (f :: fs) fields''

theorem fieldsLoop_read {version : Bool} {fs : List Field} {fields fields' : Fields} {budget : ℕ}
    (hfs : Absorbs version fields fs fields') (hlines : ∀ f ∈ fs, f.line.length < lineMax)
    (h : content r = block fs ++ rest) (hbudget : (block fs).length ≤ budget)
    (hfuel : fs.length < fuel) :
    ∃ r', fieldsLoop version fuel budget fields r =
        .ok (fields', budget - (block fs).length, r') ∧
      content r' = rest ∧ r'.fails = r.fails := by
  induction hfs generalizing budget r fuel with
  | nil fields =>
    obtain ⟨fuel, rfl⟩ := fuel_succ hfuel
    obtain ⟨r', hline, hrest⟩ := within_read (w := []) nofun h (by decide) hbudget
    refine ⟨r', ?_, hrest⟩
    rw [fieldsLoop, hline]
    rfl
  | @cons fields fields' fields'' f fs htake hfs ih =>
    obtain ⟨fuel, rfl⟩ := fuel_succ hfuel
    obtain ⟨hroom, hlines⟩ := List.forall_mem_cons.mp hlines
    obtain ⟨r₁, hline, hcontent, hfails, hmore⟩ := block_read h hroom hbudget
    obtain ⟨r₂, hloop, hrest, hfails₂⟩ := ih hlines hcontent hmore
      (Nat.lt_of_succ_lt_succ hfuel)
    refine ⟨r₂, ?_, hrest, hfails₂.trans hfails⟩
    rw [fieldsLoop, hline]
    refine (if_neg f.line_ne_nil).trans ?_
    rw [field_text]
    change (takeField version fields f.name f.value >>= _) = _
    rw [htake]
    refine hloop.trans ?_
    rw [block_length, Nat.sub_sub]

def isLength (f : Field) : Bool := same f.name "Content-Length"

def isCoding (f : Field) : Bool := same f.name "Transfer-Encoding"

def isConnection (f : Field) : Bool := same f.name "Connection"

/-- A connection option is among the fields. -/
def Asks (word : String) (fs : List Field) : Prop :=
  ∃ f ∈ fs, isConnection f ∧ ∃ os, Listed Token f.value os ∧ ∃ o ∈ os, same o word

/-- Fields that frame a body of `len` bytes, and legal lists of options, which may be empty. -/
structure Framed (version : Bool) (len : ℕ) (fs : List Field) : Prop where
  options : ∀ f ∈ fs, isConnection f → f.value = [] ∨ ∃ os, Listed Token f.value os
  lengths : ∀ f ∈ fs, isLength f → ∃ os, Listed (Numeral 10 decimalDigit · len) f.value os
  codings : ∀ f ∈ fs, isCoding f → version = true ∧ same f.value "chunked"
  once : fs.countP isCoding ≤ 1

/-- What is known after some fields. -/
structure Known (len : ℕ) (fs : List Field) (fields : Fields) : Prop where
  length : fields.length = if fs.any isLength then some len else none
  chunked : fields.chunked = fs.any isCoding
  closes : Asks "close" fs → fields.closes = true

theorem foldl_option (os : List Bytes) (fields : Fields) :
    let fields' := os.foldl Fields.option fields
    fields'.length = fields.length ∧ fields'.chunked = fields.chunked ∧
      fields'.closes = (fields.closes || os.any (same · "close")) := by
  induction os generalizing fields with
  | nil => exact ⟨rfl, rfl, (Bool.or_false _).symm⟩
  | cons o os ih =>
    obtain ⟨hlength, hchunked, hcloses⟩ := ih (fields.option o)
    refine ⟨hlength, hchunked, hcloses.trans ?_⟩
    rw [List.any_cons, ← Bool.or_assoc]
    rfl

theorem asks_append {word : String} {fs gs : List Field} :
    Asks word (fs ++ gs) ↔ Asks word fs ∨ Asks word gs := by
  simp only [Asks, List.mem_append, or_and_right, exists_or]

theorem asks_singleton {word : String} {f : Field} (h : Asks word [f]) :
    isConnection f ∧ ∃ os, Listed Token f.value os ∧ ∃ o ∈ os, same o word := by
  obtain ⟨f', hf, hasks⟩ := h
  rwa [List.mem_singleton.mp hf] at hasks

theorem same_exclusive {w : Bytes} {one two : String} (h : same w one)
    (hne : (ascii one).map lower ≠ (ascii two).map lower) : same w two = false := by
  by_contra htwo
  exact hne ((of_decide_eq_true h).symm.trans
    (of_decide_eq_true (Bool.eq_true_of_not_eq_false htwo)))

theorem Framed.sublist {version : Bool} {len : ℕ} {fs gs : List Field}
    (h : Framed version len gs) (hfs : List.Sublist fs gs) : Framed version len fs :=
  ⟨fun f hf => h.options f (hfs.subset hf), fun f hf => h.lengths f (hfs.subset hf),
    fun f hf => h.codings f (hfs.subset hf), (hfs.countP_le).trans h.once⟩

theorem asks_other {word : String} {fs : List Field} {f : Field} (hf : isConnection f = false)
    (h : Asks word (fs ++ [f])) : Asks word fs := by
  refine (asks_append.mp h).resolve_right fun h => ?_
  rw [(asks_singleton h).1] at hf
  contradiction

theorem takeField_eq (version : Bool) (fields : Fields) (f : Field) :
    takeField version fields f.name f.value =
      if isLength f then do
        let n ← contentLength (f.value.length + 1) f.value fields.length
        return { fields with length := some n }
      else if isCoding f then
        if fields.chunked || !version || !same f.value "chunked" then .error .refused
        else .ok { fields with chunked := true }
      else if isConnection f then connection (f.value.length + 1) f.value fields
      else .ok fields := rfl

theorem takeField_read {version : Bool} {len : ℕ} {seen : List Field} {f : Field} {fields : Fields}
    (hframed : Framed version len (seen ++ [f])) (hlen : len < 2 ^ 64)
    (hnonempty : isConnection f → f.value ≠ []) (hknown : Known len seen fields) :
    ∃ fields', takeField version fields f.name f.value = .ok fields' ∧
      Known len (seen ++ [f]) fields' := by
  have hmem : f ∈ seen ++ [f] := List.mem_append_right _ List.mem_cons_self
  have hany : ∀ p : Field → Bool, (seen ++ [f]).any p = (seen.any p || p f) := fun p => by
    rw [List.any_append, List.any_cons, List.any_nil, Bool.or_false]
  rw [takeField_eq]
  by_cases hlength : isLength f = true
  · have hcoding : isCoding f = false := same_exclusive hlength (by decide)
    have hconnection : isConnection f = false := same_exclusive hlength (by decide)
    obtain ⟨os, hos⟩ := hframed.lengths f hmem hlength
    have hseen : ∀ k ∈ fields.length, k = len := by
      intro k hk
      rw [hknown.length] at hk
      split_ifs at hk
      · exact (Option.some.inj hk).symm
      · cases hk
    have hread := contentLength_read hos hlen hseen (Nat.lt_succ_self f.value.length)
    refine ⟨{ fields with length := some len }, ?_, ?_, ?_, fun hasks => ?_⟩
    · rw [if_pos hlength, hread]
      rfl
    · rw [hany, hlength, Bool.or_true]
      rfl
    · rw [hany, hcoding, Bool.or_false]
      exact hknown.chunked
    · exact hknown.closes (asks_other hconnection hasks)
  · rw [Bool.not_eq_true] at hlength
    rw [hlength, if_neg Bool.false_ne_true]
    by_cases hcoding : isCoding f = true
    · have hconnection : isConnection f = false := same_exclusive hcoding (by decide)
      obtain ⟨rfl, hchunked⟩ := hframed.codings f hmem hcoding
      have hfresh : seen.any isCoding = false := by
        rw [List.any_eq_false]
        intro g hg hcoded
        have honce := hframed.once
        rw [List.countP_append, List.countP_singleton, if_pos hcoding] at honce
        have := List.countP_pos_iff.mpr ⟨g, hg, hcoded⟩
        omega
      refine ⟨{ fields with chunked := true }, ?_, ?_, ?_, fun hasks => ?_⟩
      · rw [if_pos hcoding, hknown.chunked, hfresh, hchunked]
        rfl
      · rw [hany, hlength, Bool.or_false]
        exact hknown.length
      · rw [hany, hcoding, Bool.or_true]
      · exact hknown.closes (asks_other hconnection hasks)
    · rw [Bool.not_eq_true] at hcoding
      rw [hcoding, if_neg Bool.false_ne_true]
      by_cases hconnection : isConnection f = true
      · obtain ⟨os, hos⟩ := (hframed.options f hmem hconnection).resolve_left
          (hnonempty hconnection)
        have hread : ∀ {os}, Listed Token f.value os →
            connection (f.value.length + 1) f.value fields = .ok (os.foldl Fields.option fields) :=
          fun hos => connection_read hos fields (Nat.lt_succ_self _)
        obtain ⟨hlen', hchunked, -⟩ := foldl_option os fields
        refine ⟨os.foldl Fields.option fields, ?_, ?_, ?_, fun hasks => ?_⟩
        · rw [if_pos hconnection]
          exact hread hos
        · rw [hany, hlength, Bool.or_false, hlen']
          exact hknown.length
        · rw [hany, hcoding, Bool.or_false, hchunked]
          exact hknown.chunked
        · rcases asks_append.mp hasks with hbefore | hhere
          · rw [(foldl_option os fields).2.2, hknown.closes hbefore, Bool.true_or]
          · obtain ⟨-, os', hos', o, ho, hsame⟩ := asks_singleton hhere
            have hequal := Except.ok.inj ((hread hos).symm.trans (hread hos'))
            rw [hequal, (foldl_option os' fields).2.2, List.any_eq_true.mpr ⟨o, ho, hsame⟩,
              Bool.or_true]
      · rw [Bool.not_eq_true] at hconnection
        refine ⟨fields, ?_, ?_, ?_, fun hasks => ?_⟩
        · rw [hconnection, if_neg Bool.false_ne_true]
        · rw [hany, hlength, Bool.or_false]
          exact hknown.length
        · rw [hany, hcoding, Bool.or_false]
          exact hknown.chunked
        · exact hknown.closes (asks_other hconnection hasks)

theorem absorbs_framed {version : Bool} {len : ℕ} {seen fs : List Field} {fields : Fields}
    (hframed : Framed version len (seen ++ fs)) (hlen : len < 2 ^ 64)
    (hnonempty : ∀ f ∈ fs, isConnection f → f.value ≠ []) (hknown : Known len seen fields) :
    ∃ fields', Absorbs version fields fs fields' ∧ Known len (seen ++ fs) fields' := by
  induction fs generalizing seen fields with
  | nil => exact ⟨fields, .nil fields, by rwa [List.append_nil]⟩
  | cons f fs ih =>
    obtain ⟨hf, hnonempty⟩ := List.forall_mem_cons.mp hnonempty
    rw [List.append_cons] at hframed
    obtain ⟨fields₁, htake, hknown₁⟩ := takeField_read
      (hframed.sublist (List.sublist_append_left _ fs)) hlen hf hknown
    obtain ⟨fields₂, habsorbs, hknown₂⟩ := ih hframed hnonempty hknown₁
    exact ⟨fields₂, .cons htake habsorbs, by rwa [List.append_cons]⟩

/-- A response header as it is sent. -/
structure Sent where
  version : Bool
  status : ℕ
  reason : Bytes
  fields : List Field
  coded : 100 ≤ status ∧ status < 600
  printable : Printable reason

def digitOf (d : ℕ) : UInt8 := UInt8.ofNat (48 + d)

def Sent.minor (s : Sent) : UInt8 := if s.version then 49 else 48

def Sent.start (s : Sent) : Bytes :=
  ascii "HTTP/1." ++ s.minor :: 32 :: digitOf (s.status / 100) ::
    digitOf (s.status / 10 % 10) :: digitOf (s.status % 10) :: 32 :: s.reason

def Sent.bytes (s : Sent) : Bytes := s.start ++ (crlf ++ block s.fields)

theorem digitOf_toNat {d : ℕ} (h : d < 10) : (digitOf d).toNat = 48 + d := by
  rw [digitOf, UInt8.toNat_ofNat']
  omega

theorem isDigit_digitOf {d : ℕ} (h : d < 10) : isDigit (digitOf d) = true := by
  rw [isDigit, decide_eq_true_iff, UInt8.le_iff_toNat_le, UInt8.le_iff_toNat_le, digitOf_toNat h]
  exact ⟨Nat.le_add_right 48 d, show 48 + d ≤ 57 by omega⟩

theorem digit_plain {d : ℕ} (h : d < 10) : Plain [digitOf d] :=
  plain_of (by decide) (by decide) (by decide)
    (List.forall_mem_singleton.mpr (isDigit_digitOf h))

theorem statusLine_read (s : Sent) : statusLine s.start = some (s.version, s.status) := by
  obtain ⟨hlow, hhigh⟩ := s.coded
  have hprotocol : (ascii "HTTP/1.").length = 7 := by decide
  have hhundred : s.status / 100 < 10 := by omega
  have hten : s.status / 10 % 10 < 10 := Nat.mod_lt _ (by decide)
  have hone : s.status % 10 < 10 := Nat.mod_lt _ (by decide)
  have hreason : s.reason.any control = false :=
    List.any_eq_false.mpr fun c hc => by simp [s.printable c hc]
  have hminor : s.minor = 48 ∧ s.version = false ∨ s.minor = 49 ∧ s.version = true := by
    rw [Sent.minor]
    cases s.version
    · exact Or.inl ⟨rfl, rfl⟩
    · exact Or.inr ⟨rfl, rfl⟩
  have hfirst : ¬ digitOf (s.status / 100) < 49 ∧ ¬ digitOf (s.status / 100) > 53 := by
    rw [UInt8.lt_iff_toNat_lt, gt_iff_lt, UInt8.lt_iff_toNat_lt, digitOf_toNat hhundred]
    exact ⟨show ¬ 48 + s.status / 100 < 49 by omega, show ¬ 53 < 48 + s.status / 100 by omega⟩
  unfold statusLine Sent.start
  rw [List.drop_left' hprotocol, List.take_left' hprotocol]
  refine (if_neg ?_).trans ?_
  · rintro (h | h | h | h | h | h | h)
    · exact h rfl
    · rcases hminor with ⟨hzero, -⟩ | ⟨hone, -⟩
      · exact h.1 hzero
      · exact h.2 hone
    · exact hfirst.1 h
    · exact hfirst.2 h
    · rw [isDigit_digitOf hten] at h
      contradiction
    · rw [isDigit_digitOf hone] at h
      contradiction
    · rw [hreason] at h
      contradiction
  · rw [digitOf_toNat hhundred, digitOf_toNat hten, digitOf_toNat hone]
    refine congrArg some (Prod.ext ?_ ?_)
    · rcases hminor with ⟨hzero, hversion⟩ | ⟨hone, hversion⟩
      · rw [hzero, hversion]
        rfl
      · rw [hone, hversion]
        rfl
    · dsimp only
      omega

theorem Sent.plain (s : Sent) : Plain s.start := by
  obtain ⟨hlow, hhigh⟩ := s.coded
  have hdigits : Plain ([digitOf (s.status / 100)] ++ ([digitOf (s.status / 10 % 10)] ++
      [digitOf (s.status % 10)])) :=
    plain_append.mpr ⟨digit_plain (by omega), plain_append.mpr
      ⟨digit_plain (Nat.mod_lt _ (by decide)), digit_plain (Nat.mod_lt _ (by decide))⟩⟩
  have hfront : Plain (ascii "HTTP/1." ++ [s.minor, 32]) := by
    rw [Sent.minor]
    cases s.version <;> decide
  have hback : Plain (32 :: s.reason) := plain_cons.mpr ⟨by decide, s.printable.plain⟩
  have hwhole := plain_append.mpr ⟨hfront, plain_append.mpr ⟨hdigits, hback⟩⟩
  rwa [List.append_assoc] at hwhole

theorem length_le_flatMap {α : Type} {f : α → Bytes} (hf : ∀ x, 0 < (f x).length) (xs : List α) :
    xs.length ≤ (xs.flatMap f).length := by
  induction xs with
  | nil => exact Nat.zero_le _
  | cons x xs ih =>
    have := hf x
    rw [List.flatMap_cons, List.length_append, List.length_cons]
    omega

theorem length_le_block (fs : List Field) : fs.length ≤ (block fs).length := by
  induction fs with
  | nil => exact Nat.zero_le _
  | cons f fs ih =>
    rw [block_length, List.length_cons]
    omega

/-- The lines that fit the line buffer. -/
def Sent.Short (s : Sent) : Prop :=
  s.start.length < lineMax ∧ ∀ f ∈ s.fields, f.line.length < lineMax

def Sent.Lists (s : Sent) : Prop := ∀ f ∈ s.fields, isConnection f → f.value ≠ []

theorem ok_bind {α β : Type} (x : α) (f : α → Except Failure β) : (Except.ok x >>= f) = f x := rfl

theorem readHead_read {s : Sent} {len budget : ℕ} (hshort : s.Short) (hlists : s.Lists)
    (hframed : Framed s.version len s.fields) (hlen : len < 2 ^ 64)
    (hone : (s.fields.any isLength && s.fields.any isCoding) = false)
    (hinterim : s.status < 200 → s.fields.any isLength = false ∧ s.fields.any isCoding = false)
    (hbody : bodiless s.status = false) (h : content r = s.bytes ++ rest)
    (hbudget : s.bytes.length ≤ budget) :
    ∃ fields r', readHead budget r =
        .ok (⟨s.version, s.status, fields⟩, budget - s.bytes.length, r') ∧
      content r' = rest ∧ r'.fails = r.fails ∧ Known len s.fields fields := by
  have hnone : Known len [] Fields.none :=
    ⟨rfl, rfl, fun ⟨f, hf, _⟩ => absurd hf List.not_mem_nil⟩
  have hfields : Framed s.version len ([] ++ s.fields) := hframed
  obtain ⟨fields, habsorbs, hknown⟩ := absorbs_framed hfields hlen hlists hnone
  have hcrlf : crlf.length = 2 := rfl
  rw [Sent.bytes, List.append_assoc, List.append_assoc] at h
  rw [Sent.bytes, List.length_append, List.length_append] at hbudget ⊢
  have hfirst : s.start.length + 2 ≤ budget := by omega
  have hmore : (block s.fields).length ≤ budget - (s.start.length + 2) := by omega
  have hfuel := (length_le_block s.fields).trans hmore
  obtain ⟨r₁, hline, hcontent, hfails⟩ := within_read s.plain h hshort.1 hfirst
  obtain ⟨r₂, hloop, hrest, hfails₂⟩ := fieldsLoop_read habsorbs hshort.2 hcontent hmore
    (Nat.lt_succ_of_le hfuel)
  refine ⟨fields, r₂, ?_, hrest, hfails₂.trans hfails, hknown⟩
  unfold readHead
  rw [hline, ok_bind]
  dsimp only
  rw [statusLine_read]
  dsimp only
  rw [hloop, ok_bind]
  dsimp only
  have hlength : fields.length.isSome = s.fields.any isLength := by
    rw [hknown.length]
    split_ifs with hany
    · exact hany.symm
    · exact (Bool.eq_false_iff.mpr hany).symm
  rw [hbody, if_neg Bool.false_ne_true, hlength, hknown.chunked, List.nil_append, hone, if_neg]
  · rw [hcrlf, Nat.sub_sub, Nat.add_assoc]
    rfl
  · rw [Bool.false_or, Bool.and_eq_true, decide_eq_true_iff]
    rintro ⟨hlow, hany⟩
    rw [(hinterim hlow).1, (hinterim hlow).2] at hany
    contradiction

/-- An interim response: it is not the switch of protocols, and has no body. -/
structure Sent.Interim (s : Sent) : Prop where
  status : s.status < 200 ∧ s.status ≠ 101
  framed : Framed s.version 0 s.fields
  bare : s.fields.any isLength = false ∧ s.fields.any isCoding = false

/-- How a body is sent; a chunk without data ends the chunks. -/
inductive Coding where
  | length
  | chunked (chunks : List Chunk) (last : Chunk) (trailers : List Field)
  | untilClose

def Coding.bytes (body : Bytes) : Coding → Bytes
  | .length => body
  | .chunked chunks last trailers =>
    chunks.flatMap Chunk.bytes ++ (last.line ++ (crlf ++ block trailers))
  | .untilClose => body

/-- The header fields say how the body is sent. -/
def Coding.Legal (fs : List Field) (body : Bytes) : Coding → Prop
  | .length => fs.any isLength = true ∧ fs.any isCoding = false
  | .chunked chunks last trailers =>
    fs.any isLength = false ∧ fs.any isCoding = true ∧ chunks.flatMap Chunk.data = body ∧
      (∀ c ∈ chunks, c.data ≠ []) ∧ last.data = [] ∧ ∀ f ∈ trailers, reserved f = false
  | .untilClose => fs.any isLength = false ∧ fs.any isCoding = false

def Coding.Fits : Coding → Prop
  | .chunked chunks last trailers =>
    (∀ c ∈ chunks ++ [last], c.line.length + 2 ≤ lineMax) ∧ (block trailers).length ≤ headerMax ∧
      ∀ f ∈ trailers, f.line.length < lineMax
  | _ => True

/-- A response with a body, behind its interim responses. -/
structure Message where
  interims : List Sent
  final : Sent
  coding : Coding
  body : Bytes

def Message.headers (m : Message) : List Sent := m.interims ++ [m.final]

def Message.bytes (m : Message) : Bytes :=
  m.headers.flatMap Sent.bytes ++ m.coding.bytes m.body

structure Message.Legal (m : Message) : Prop where
  interims : ∀ s ∈ m.interims, s.Interim
  status : 200 ≤ m.final.status
  bodied : bodiless m.final.status = false
  framed : Framed m.final.version m.body.length m.final.fields
  coded : m.coding.Legal m.final.fields m.body

structure Message.Fits (m : Message) (cap : ℕ) : Prop where
  few : m.interims.length ≤ interimMax
  headers : (m.headers.flatMap Sent.bytes).length ≤ headerMax
  lines : ∀ s ∈ m.headers, s.Short
  coding : m.coding.Fits
  body : m.body.length ≤ cap

theorem Sent.Interim.bodied {s : Sent} (h : s.Interim) : bodiless s.status = false := by
  have hlow := h.status.1
  refine decide_eq_false ?_
  rintro (hno | hnot)
  · omega
  · omega

theorem headLoop_read {interims : List Sent} {final : Sent} {len left budget : ℕ}
    (hinterims : ∀ s ∈ interims, s.Interim) (hshort : ∀ s ∈ interims ++ [final], s.Short)
    (hlists : ∀ s ∈ interims ++ [final], s.Lists) (hstatus : 200 ≤ final.status)
    (hbody : bodiless final.status = false) (hframed : Framed final.version len final.fields)
    (hlen : len < 2 ^ 64) (hone : (final.fields.any isLength && final.fields.any isCoding) = false)
    (h : content r = (interims ++ [final]).flatMap Sent.bytes ++ rest)
    (hbudget : ((interims ++ [final]).flatMap Sent.bytes).length ≤ budget)
    (hleft : interims.length ≤ left) :
    ∃ fields r', headLoop left budget r = .ok (⟨final.version, final.status, fields⟩, r') ∧
      content r' = rest ∧ r'.fails = r.fails ∧ Known len final.fields fields := by
  induction interims generalizing r left budget with
  | nil =>
    simp only [List.nil_append, List.flatMap_cons, List.flatMap_nil, List.append_nil] at h hbudget
    obtain ⟨fields, r', hread, hrest⟩ := readHead_read (hshort _ List.mem_cons_self)
      (hlists _ List.mem_cons_self) hframed hlen hone (fun hlow => by omega) hbody h hbudget
    refine ⟨fields, r', ?_, hrest⟩
    cases left with
    | zero =>
      rw [headLoop, hread, ok_bind]
      exact if_pos hstatus
    | succ left =>
      rw [headLoop, hread, ok_bind]
      exact if_pos hstatus
  | cons s interims ih =>
    obtain ⟨left, rfl⟩ := fuel_succ (show interims.length < left from hleft)
    obtain ⟨hinterim, hinterims⟩ := List.forall_mem_cons.mp hinterims
    obtain ⟨hshort₁, hshort⟩ := List.forall_mem_cons.mp hshort
    obtain ⟨hlists₁, hlists⟩ := List.forall_mem_cons.mp hlists
    obtain ⟨hlow, hswitch⟩ := hinterim.status
    simp only [List.cons_append, List.flatMap_cons, List.append_assoc, List.length_append]
      at h hbudget
    have hfirst : s.bytes.length ≤ budget := by omega
    have hmore : ((interims ++ [final]).flatMap Sent.bytes).length ≤
        budget - s.bytes.length := by
      omega
    obtain ⟨fields₁, r₁, hread, hcontent, hfails, -⟩ := readHead_read hshort₁ hlists₁
      hinterim.framed (by decide) (by rw [hinterim.bare.1, Bool.false_and])
      (fun _ => hinterim.bare) hinterim.bodied h hfirst
    obtain ⟨fields, r₂, hloop, hrest, hfails₂, hknown⟩ := ih hinterims hshort hlists hcontent hmore
      (Nat.le_of_succ_le_succ hleft)
    refine ⟨fields, r₂, ?_, hrest, hfails₂.trans hfails, hknown⟩
    rw [headLoop, hread, ok_bind]
    refine (if_neg (Nat.not_le.mpr hlow)).trans ?_
    exact (if_neg hswitch).trans hloop

theorem readBody_read {m : Message} {fields : Fields} (hlegal : m.Legal) (hfits : m.Fits cap)
    (hcap : cap < 2 ^ 64) (hknown : Known m.body.length m.final.fields fields)
    (hclose : m.coding = .untilClose → r.fails = false ∧ rest = [])
    (h : content r = m.coding.bytes m.body ++ rest) :
    ∃ r', readBody cap ⟨m.final.version, m.final.status, fields⟩ r = .ok (m.body, r') ∧
      content r' = rest := by
  have hroom : ([] : Bytes).length + m.body.length ≤ cap := by
    rw [List.length_nil, Nat.zero_add]
    exact hfits.body
  have hcoded := hlegal.coded
  have hshort := hfits.coding
  unfold readBody
  rw [if_neg (by rw [hlegal.bodied]; exact Bool.false_ne_true)]
  cases hcoding : m.coding with
  | length =>
    rw [hcoding] at hcoded h
    have hlength : fields.length = some m.body.length := by rw [hknown.length, if_pos hcoded.1]
    rw [if_neg (by rw [hknown.chunked, hcoded.2]; exact Bool.false_ne_true), hlength]
    obtain ⟨r', hbytes, hcontent, -⟩ := bytes_read h hroom
    exact ⟨r', hbytes, hcontent⟩
  | chunked chunks last trailers =>
    rw [hcoding] at hcoded hshort h
    obtain ⟨-, hchunked, hdata, hchunks, hlast, htrailers⟩ := hcoded
    obtain ⟨hlines, hblock, hfields⟩ := hshort
    rw [if_pos (by rw [hknown.chunked, hchunked])]
    have hpositive : ∀ c : Chunk, 0 < c.bytes.length := fun c => by
      have hcrlf : crlf.length = 2 := rfl
      rw [Chunk.bytes, List.length_append, List.length_append]
      omega
    have hfuel : chunks.length < (content r).length + 1 := by
      have := length_le_flatMap hpositive chunks
      rw [h, Coding.bytes, List.length_append, List.length_append]
      omega
    rw [← hdata] at hroom ⊢
    simp only [Coding.bytes, List.append_assoc] at h
    obtain ⟨r₁, hloop, hrest, -⟩ := chunkLoop_read hchunks hlast hlines hroom hcap h hfuel
    obtain ⟨r₂, htrailer, hend, -⟩ := trailerLoop_read htrailers hfields hrest hblock
      (Nat.lt_succ_of_le ((length_le_block trailers).trans hblock))
    refine ⟨r₂, ?_, hend⟩
    rw [hloop, ok_bind]
    dsimp only
    rw [htrailer, ok_bind]
    rfl
  | untilClose =>
    obtain ⟨hfails, rfl⟩ := hclose hcoding
    rw [hcoding] at hcoded h
    have hlength : fields.length = none := by
      rw [hknown.length, hcoded.1]
      rfl
    rw [if_neg (by rw [hknown.chunked, hcoded.2]; exact Bool.false_ne_true), hlength]
    obtain ⟨data, reads, fails⟩ := r
    obtain rfl : fails = false := hfails
    rw [List.append_nil] at h
    exact untilClose_read h hroom

/-- A response is read up to what stands behind it, which is nothing if the close ends it. -/
theorem message_read {m : Message} (hlegal : m.Legal) (hfits : m.Fits cap) (hcap : cap < 2 ^ 64)
    (hlists : ∀ s ∈ m.headers, s.Lists)
    (hclose : m.coding = .untilClose → r.fails = false ∧ rest = [])
    (h : content r = m.bytes ++ rest) :
    ∃ fields r₁ r₂, headLoop interimMax headerMax r =
        .ok (⟨m.final.version, m.final.status, fields⟩, r₁) ∧
      Known m.body.length m.final.fields fields ∧
      readBody cap ⟨m.final.version, m.final.status, fields⟩ r₁ = .ok (m.body, r₂) ∧
      content r₂ = rest := by
  have hone : (m.final.fields.any isLength && m.final.fields.any isCoding) = false := by
    have hcoded := hlegal.coded
    cases hcoding : m.coding with
    | length =>
      rw [hcoding] at hcoded
      rw [hcoded.2, Bool.and_false]
    | chunked chunks last trailers =>
      rw [hcoding] at hcoded
      rw [hcoded.1, Bool.false_and]
    | untilClose =>
      rw [hcoding] at hcoded
      rw [hcoded.1, Bool.false_and]
  rw [Message.bytes, List.append_assoc] at h
  obtain ⟨fields, r₁, hhead, hcontent, hfails, hknown⟩ := headLoop_read hlegal.interims hfits.lines
    hlists hlegal.status hlegal.bodied hlegal.framed (hfits.body.trans_lt hcap) hone h hfits.headers
    hfits.few
  obtain ⟨r₂, hbody, hrest⟩ := readBody_read hlegal hfits hcap hknown
    (fun hcoding => ⟨hfails.trans (hclose hcoding).1, (hclose hcoding).2⟩) hcontent
  exact ⟨fields, r₁, r₂, hhead, hknown, hbody, hrest⟩

/-- What an origin may send is read as it was sent, whichever way the transport cuts it, and the
connection is kept only if the body was delimited and the response does not ask to close. Whatever
else arrives, no loop runs on and no buffer is overrun. -/
theorem response_read (cap : ℕ) (hcap : cap < 2 ^ 64) :
    (∀ (m : Message) (r : Reader), m.Legal → m.Fits cap → (∀ s ∈ m.headers, s.Lists) →
      content r = m.bytes → (m.coding = .untilClose → r.fails = false) →
      (response cap false r).status = .ok m.final.status ∧
        (response cap false r).body = m.body ∧
        ((response cap false r).reusable = true →
          m.coding ≠ .untilClose ∧ ¬ Asks "close" m.final.fields)) ∧
    ∀ (late : Bool) (r : Reader), (response cap late r).status ≠ .error .overrun ∧
      (response cap late r).status ≠ .error .exhausted ∧
      (response cap late r).body.length ≤ cap := by
  refine ⟨fun m r hlegal hfits hlists h hclose => ?_, response_bounded cap⟩
  obtain ⟨fields, r₁, r₂, hhead, hknown, hbody, hrest⟩ := message_read hlegal hfits hcap hlists
    (fun hcoding => ⟨hclose hcoding, rfl⟩) (h.trans (List.append_nil _).symm)
  unfold response
  rw [hhead]
  dsimp only
  rw [hbody]
  dsimp only
  rw [if_neg (by rw [content_nil hrest]; exact fun h => h.elim (fun h => h rfl) Bool.false_ne_true)]
  refine ⟨rfl, rfl, fun hreusable => ?_⟩
  dsimp only at hreusable
  rw [hlegal.bodied, hknown.chunked, hknown.length, Bool.and_eq_true, Bool.and_eq_true] at hreusable
  refine ⟨fun hcoding => ?_, fun hasks => ?_⟩
  · have hcoded := hlegal.coded
    rw [hcoding] at hcoded
    rw [hcoded.1, hcoded.2] at hreusable
    exact Bool.false_ne_true hreusable.2
  · rw [hknown.closes hasks] at hreusable
    exact Bool.false_ne_true hreusable.1.1

/-- Every byte in a read of its own. -/
def byteByByte (w : Bytes) : Reader := ⟨[], w.map (·, []), false⟩

theorem content_byteByByte (w : Bytes) : content (byteByByte w) = w := by
  change (w.map (·, [])).flatMap (fun read : UInt8 × Bytes => read.1 :: read.2) = w
  rw [List.flatMap_map, List.flatMap_singleton']

theorem token_of (h : w ≠ [] ∧ w.all token = true) : Token w := ⟨h.1, List.all_eq_true.mp h.2⟩

theorem printable_of (h : w.all (fun c => !control c) = true) : Printable w := fun c hc =>
  Bool.not_eq_true' (control c) ▸ List.all_eq_true.mp h c hc

def sample (name value : Bytes) (hname : Token name) (hvalue : Printable value)
    (htrimmed : ∀ c, c ∈ value.head? ∨ c ∈ value.getLast? → blank c = false) : Field :=
  ⟨name, [32], value, [], hname, List.forall_mem_singleton.mpr rfl, nofun, hvalue, htrimmed⟩

def zeroLength : Field :=
  sample (ascii "Content-Length") [48] (token_of (by decide)) (printable_of rfl)
    (by rintro c (h | h) <;> cases h <;> rfl)

def noOptions : Field :=
  sample (ascii "Connection") [] (token_of (by decide)) nofun (by rintro c (h | h) <;> cases h)

def closing : Field :=
  sample (ascii "Connection") (ascii "close") (token_of (by decide))
    (printable_of rfl) (by rintro c (h | h) <;> cases h <;> rfl)

def inChunks : Field :=
  sample (ascii "Transfer-Encoding") (ascii "chunked") (token_of (by decide))
    (printable_of rfl) (by rintro c (h | h) <;> cases h <;> rfl)

def answer (status : ℕ) (h : 100 ≤ status ∧ status < 600) (fields : List Field) : Sent :=
  ⟨true, status, [], fields, h, nofun⟩

theorem framed_none {fs : List Field} (hvalues : ∀ f ∈ fs, f = zeroLength ∨ f = noOptions ∨
    f = closing) : Framed true 0 fs := by
  refine ⟨fun f hf h => ?_, fun f hf h => ?_, fun f hf h => ?_, ?_⟩
  · rcases hvalues f hf with rfl | rfl | rfl
    · exact absurd h (by decide)
    · exact Or.inl rfl
    · exact Or.inr ⟨_, .last (token_of (by decide))⟩
  · rcases hvalues f hf with rfl | rfl | rfl
    · exact ⟨_, .last ⟨by decide, List.forall_mem_singleton.mpr rfl, rfl⟩⟩
    · exact absurd h (by decide)
    · exact absurd h (by decide)
  · rcases hvalues f hf with rfl | rfl | rfl <;> exact absurd h (by decide)
  · rw [List.countP_eq_zero.mpr]
    · exact Nat.zero_le 1
    · intro f hf
      rcases hvalues f hf with rfl | rfl | rfl <;> decide

/-- One byte in a chunk with an extension, behind an interim response. -/
def extended : Message where
  interims := [answer 100 (by decide) [closing]]
  final := answer 200 (by decide) [inChunks]
  coding := .chunked
    [⟨[49], [⟨[], [], [97], some ([], [], .quote [(true, 34)])⟩], [120],
      ⟨by decide, List.forall_mem_singleton.mpr rfl, rfl⟩, by
        simp only [List.mem_singleton, forall_eq]
        refine ⟨nofun, nofun, token_of (by decide), fun v hv => ?_⟩
        cases hv
        exact ⟨nofun, nofun, List.forall_mem_singleton.mpr ⟨rfl, nofun⟩⟩⟩]
    ⟨[48], [], [], ⟨by decide, List.forall_mem_singleton.mpr rfl, rfl⟩, nofun⟩ []
  body := [120]

theorem extended_legal : extended.Legal := by
  refine ⟨fun s hs => ?_, by decide, by decide, ⟨?_, ?_, ?_, by decide⟩, ?_⟩
  · obtain rfl := List.mem_singleton.mp hs
    exact ⟨by decide, framed_none (by simp [answer]), by decide⟩
  · intro f hf h
    obtain rfl := List.mem_singleton.mp hf
    exact absurd h (by decide)
  · intro f hf h
    obtain rfl := List.mem_singleton.mp hf
    exact absurd h (by decide)
  · intro f hf _
    obtain rfl := List.mem_singleton.mp hf
    exact ⟨rfl, by decide⟩
  · exact ⟨by decide, by decide, rfl, by decide, rfl, nofun⟩

theorem extended_fits : extended.Fits 1 :=
  ⟨by decide, by decide, by unfold Sent.Short; decide, ⟨by decide, by decide, nofun⟩, by decide⟩

theorem extended_lists : ∀ s ∈ extended.headers, s.Lists := by
  unfold Sent.Lists
  decide

theorem response_read_extended :
    (response 1 false (byteByByte extended.bytes)).status = .ok 200 ∧
      (response 1 false (byteByByte extended.bytes)).body = [120] := by
  obtain ⟨hstatus, hbody, -⟩ := (response_read 1 (by decide)).1 extended _ extended_legal
    extended_fits extended_lists (content_byteByByte extended.bytes) nofun
  exact ⟨hstatus, hbody⟩

/-- A final response with an empty list of options. -/
def unlisted : Message :=
  ⟨[], answer 200 (by decide) [noOptions, zeroLength], .length, []⟩

/-- An interim response that asks to close. -/
def closedEarly : Message :=
  ⟨[answer 100 (by decide) [closing]], answer 200 (by decide) [zeroLength], .length, []⟩

theorem unlisted_refused :
    (unlisted.Legal ∧ unlisted.Fits 0 ∧
      (response 0 false (byteByByte unlisted.bytes)).status = .error .refused) ∧
    (closedEarly.Legal ∧ closedEarly.Fits 0 ∧ (∃ s ∈ closedEarly.headers, Asks "close" s.fields) ∧
      (response 0 false (byteByByte closedEarly.bytes)).reusable = true) := by
  refine ⟨⟨⟨nofun, by decide, by decide, framed_none (by simp [unlisted, answer]), ?_⟩,
    ⟨by decide, by decide, by unfold Sent.Short; decide, trivial, by decide⟩,
      by decide +kernel⟩,
    ⟨⟨fun s hs => ?_, by decide, by decide, framed_none (by simp [closedEarly, answer]), ?_⟩,
    ⟨by decide, by decide, by unfold Sent.Short; decide, trivial, by decide⟩, ?_,
      by decide +kernel⟩⟩
  · exact ⟨by decide, by decide⟩
  · obtain rfl := List.mem_singleton.mp hs
    exact ⟨by decide, framed_none (by simp [answer]), by decide⟩
  · exact ⟨by decide, by decide⟩
  · exact ⟨_, List.mem_cons_self, closing, List.mem_cons_self, by decide, [ascii "close"],
      .last (token_of (by decide)), _, List.mem_cons_self, by decide⟩

end HttpFraming

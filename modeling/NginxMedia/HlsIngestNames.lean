import Mathlib.Data.Nat.Basic
import Mathlib.Tactic.Ring
import NginxMedia.HlsIngest
import NginxMedia.MixedOrder

/-! The order in which segment names are read. Names of one stem are compared by their
trailing numbers and all others as strings; `ordered_iff` says for which names that is an
order, and with it that a directory is read the same way however it is listed. -/
namespace HlsIngestNames

open HlsIngest MixedOrder ByteString

open Std (TransCmp LawfulEqCmp OrientedCmp)

variable {a b c : Name} {x y : Name}

instance : TransCmp strcmp := inferInstanceAs (TransCmp (List.compareLex compare))
instance : LawfulEqCmp strcmp := inferInstanceAs (LawfulEqCmp (List.compareLex compare))

def SameStem (a b : Name) : Prop := digits a ≠ [] ∧ digits b ≠ [] ∧ stem a = stem b

instance : DecidableRel SameStem := fun a b =>
  inferInstanceAs (Decidable (digits a ≠ [] ∧ digits b ≠ [] ∧ stem a = stem b))

theorem sameStem_classes : Classes SameStem where
  symm h := ⟨h.2.1, h.1, h.2.2.symm⟩
  trans h h' := ⟨h.1, h'.2.1, h.2.2.trans h'.2.2⟩

def number (a : Name) : ℕ := value (digits a)

def byNumber : Name → Name → Ordering := compareLex (compareOn number) strcmp

instance : TransCmp byNumber := inferInstanceAs (TransCmp (compareLex (compareOn number) strcmp))

instance : LawfulEqCmp byNumber where
  eq_of_compare {a b} h := by
    have hboth : compareOn number a b = .eq ∧ strcmp a b = .eq := Ordering.then_eq_eq.mp h
    exact LawfulEqCmp.compare_eq_iff_eq.mp hboth.2

theorem isDigit_iff {d : UInt8} : isDigit d = true ↔ 48 ≤ d.toNat ∧ d.toNat ≤ 57 := by
  simp [isDigit, UInt8.le_iff_toNat_le]

theorem value_foldl (ds : Name) (n : ℕ) :
    ds.foldl (fun n c => 10 * n + (c.toNat - 48)) n = n * 10 ^ ds.length + value ds := by
  induction ds generalizing n with
  | nil => simp [value]
  | cons d ds ih =>
    have hvalue : value (d :: ds) = (10 * 0 + (d.toNat - 48)) * 10 ^ ds.length + value ds := ih _
    rw [List.foldl_cons, ih, hvalue, List.length_cons]
    ring

theorem value_cons (d : UInt8) (ds : Name) :
    value (d :: ds) = (d.toNat - 48) * 10 ^ ds.length + value ds := by
  rw [value, List.foldl_cons, value_foldl]
  simp

theorem value_lt {ds : Name} (h : ∀ d ∈ ds, isDigit d = true) : value ds < 10 ^ ds.length := by
  induction ds with
  | nil => simp [value]
  | cons d ds ih =>
    have hd : d.toNat - 48 ≤ 9 := by
      have := isDigit_iff.mp (h d List.mem_cons_self)
      omega
    have hrest := ih fun x hx => h x (List.mem_cons_of_mem _ hx)
    have hmul := Nat.mul_le_mul_right (10 ^ ds.length) hd
    rw [value_cons, List.length_cons, Nat.pow_succ]
    omega

theorem compare_leading {P p q u v : ℕ} (hu : u < P) (hv : v < P) :
    compare (p * P + u) (q * P + v) = (compare p q).then (compare u v) := by
  rcases Nat.lt_trichotomy p q with hlt | heq | hgt
  · have hmul := Nat.mul_le_mul_right P hlt
    rw [Nat.succ_mul] at hmul
    rw [Nat.compare_eq_lt.mpr hlt, Nat.compare_eq_lt.mpr (by omega)]
    rfl
  · rw [heq, Nat.compare_eq_eq.mpr rfl]
    rcases Nat.lt_trichotomy u v with hlt | heq' | hgt
    · rw [Nat.compare_eq_lt.mpr hlt, Nat.compare_eq_lt.mpr (by omega)]
      rfl
    · rw [heq', Nat.compare_eq_eq.mpr rfl, Nat.compare_eq_eq.mpr rfl]
      rfl
    · rw [Nat.compare_eq_gt.mpr hgt, Nat.compare_eq_gt.mpr (by omega)]
      rfl
  · have hmul := Nat.mul_le_mul_right P hgt
    rw [Nat.succ_mul] at hmul
    rw [Nat.compare_eq_gt.mpr hgt, Nat.compare_eq_gt.mpr (by omega)]
    rfl

theorem compare_digit {d e : UInt8} (hd : isDigit d = true) (he : isDigit e = true) :
    compare d e = compare (d.toNat - 48) (e.toNat - 48) := by
  have hd' := isDigit_iff.mp hd
  have he' := isDigit_iff.mp he
  have hbyte : compare d e = if d.toNat < e.toNat then .lt else
      if d.toNat = e.toNat then .eq else .gt := by
    simp only [UInt8.toNat_inj]
    rfl
  rw [hbyte]
  rcases Nat.lt_trichotomy d.toNat e.toNat with hlt | heq | hgt
  · rw [if_pos hlt, Nat.compare_eq_lt.mpr (by omega)]
  · rw [if_neg (by omega), if_pos heq, heq, Nat.compare_eq_eq.mpr rfl]
  · rw [if_neg (by omega), if_neg (by omega), Nat.compare_eq_gt.mpr (by omega)]

theorem strcmp_digits {x y : Name} (hx : ∀ d ∈ x, isDigit d = true)
    (hy : ∀ d ∈ y, isDigit d = true) (hlen : x.length = y.length) :
    strcmp x y = compare (value x) (value y) := by
  induction x generalizing y with
  | nil =>
    rw [List.length_eq_zero_iff.mp hlen.symm]
    rfl
  | cons d x ih =>
    cases y with
    | nil => cases hlen
    | cons e y =>
      have hlen' : x.length = y.length := Nat.succ.inj hlen
      have hx' : ∀ z ∈ x, isDigit z = true := fun z hz => hx z (List.mem_cons_of_mem _ hz)
      have hy' : ∀ z ∈ y, isDigit z = true := fun z hz => hy z (List.mem_cons_of_mem _ hz)
      have hcons : strcmp (d :: x) (e :: y) = (compare d e).then (strcmp x y) :=
        List.compareLex_cons_cons
      have hvx := value_lt hx'
      rw [hlen'] at hvx
      rw [hcons, ih hx' hy' hlen', value_cons, value_cons, hlen',
        compare_leading hvx (value_lt hy'),
        compare_digit (hx d List.mem_cons_self) (hy e List.mem_cons_self)]

theorem digits_isDigit (a : Name) : ∀ d ∈ digits a, isDigit d = true := by
  intro d hd
  exact List.mem_rtakeWhile_imp hd

theorem significant_spec (ds : Name) : ∃ k, ds = List.replicate k 48 ++ significant ds ∧
    (2 ≤ (significant ds).length → (significant ds).head? ≠ some 48) ∧
      (ds ≠ [] → significant ds ≠ []) := by
  induction ds using significant.induct with
  | case1 d rest ih =>
    obtain ⟨k, heq, hhead, hne⟩ := ih
    rw [significant, if_pos rfl]
    exact ⟨k + 1, congrArg (List.cons 48) heq, hhead, fun _ => hne (List.cons_ne_nil d rest)⟩
  | case2 c d rest hc =>
    rw [significant, if_neg hc]
    exact ⟨0, rfl, fun _ h => hc (Option.some.inj h), id⟩
  | case3 short hshort =>
    rw [significant]
    · refine ⟨0, rfl, fun hlen => ?_, id⟩
      match short, hlen, hshort with
      | c :: d :: rest, _, hshort => exact absurd rfl (hshort c d rest)
    · exact hshort

theorem significant_isDigit {ds : Name} (h : ∀ d ∈ ds, isDigit d = true) :
    ∀ d ∈ significant ds, isDigit d = true := by
  obtain ⟨k, heq, -, -⟩ := significant_spec ds
  intro d hd
  exact h d (heq ▸ List.mem_append_right _ hd)

theorem value_zeros (k : ℕ) (ds : Name) : value (List.replicate k 48 ++ ds) = value ds := by
  induction k with
  | zero => rfl
  | succ k ih =>
    have hzero : (48 : UInt8).toNat - 48 = 0 := by decide
    rw [List.replicate_succ, List.cons_append, value_cons, hzero, ih, Nat.zero_mul, Nat.zero_add]

theorem value_significant (ds : Name) : value (significant ds) = value ds := by
  obtain ⟨k, heq, -, -⟩ := significant_spec ds
  have hvalue := value_zeros k (significant ds)
  rw [← heq] at hvalue
  exact hvalue.symm

theorem le_value_significant {ds : Name} (h : ∀ d ∈ ds, isDigit d = true)
    (hlen : 2 ≤ (significant ds).length) :
    10 ^ ((significant ds).length - 1) ≤ value (significant ds) := by
  obtain ⟨-, -, hhead, -⟩ := significant_spec ds
  have hdigits := significant_isDigit h
  cases hs : significant ds with
  | nil =>
    rw [hs] at hlen
    cases hlen
  | cons c rest =>
    rw [hs] at hhead hlen hdigits
    have hdigit := isDigit_iff.mp (hdigits c List.mem_cons_self)
    have hne : c.toNat ≠ 48 := fun heq =>
      hhead hlen (congrArg some (UInt8.toNat_inj.mp heq))
    have hone : 1 ≤ c.toNat - 48 := by omega
    have hmul := Nat.mul_le_mul_right (10 ^ rest.length) hone
    rw [value_cons, List.length_cons, Nat.add_sub_cancel]
    omega

theorem significant_ne_nil {ds : Name} (h : ds ≠ []) : significant ds ≠ [] := by
  obtain ⟨-, -, -, hne⟩ := significant_spec ds
  exact hne h

theorem value_lt_of_length {x y : Name} (hx : ∀ d ∈ x, isDigit d = true)
    (hy : ∀ d ∈ y, isDigit d = true) (hne : x ≠ [])
    (hlen : (significant x).length < (significant y).length) : value x < value y := by
  have hpos : 0 < (significant x).length := List.length_pos_of_ne_nil (significant_ne_nil hne)
  have hlow := le_value_significant hy (by omega)
  have hhigh := value_lt (significant_isDigit hx)
  have hpow := Nat.pow_le_pow_right (n := 10) (by decide)
    (show (significant x).length ≤ (significant y).length - 1 by omega)
  rw [value_significant] at hlow hhigh
  omega

theorem take_stem (a : Name) : a.take (stem a).length = stem a := by
  have hprefix : stem a <+: a :=
    (List.rdropWhile_prefix isDigit _).trans (List.take_prefix _ _)
  exact (List.prefix_iff_eq_take.mp hprefix).symm

theorem sameStem_iff (a b : Name) : SameStem a b ↔ ¬(digits a = [] ∨ digits b = [] ∨
    (stem a).length ≠ (stem b).length ∨
      strcmp (a.take (stem a).length) (b.take (stem a).length) ≠ .eq) := by
  constructor
  · rintro ⟨ha, hb, hstem⟩ (h | h | h | h)
    · exact ha h
    · exact hb h
    · exact h (congrArg List.length hstem)
    · rw [take_stem, hstem, take_stem] at h
      exact h Std.ReflCmp.compare_self
  · intro h
    push Not at h
    obtain ⟨ha, hb, hlen, hcmp⟩ := h
    rw [hlen, take_stem, ← hlen, take_stem] at hcmp
    exact ⟨ha, hb, LawfulEqCmp.compare_eq_iff_eq.mp hcmp⟩

theorem ingestCmp_eq (a b : Name) : ingestCmp a b = mixed SameStem byNumber strcmp a b := by
  unfold ingestCmp
  dsimp only
  by_cases h : SameStem a b
  · rw [mixed_same h, if_neg ((sameStem_iff a b).mp h)]
    have hbyNumber : byNumber a b =
        (compare (value (digits a)) (value (digits b))).then (strcmp a b) := rfl
    have hda := digits_isDigit a
    have hdb := digits_isDigit b
    rw [hbyNumber]
    by_cases hlen : (significant (digits a)).length = (significant (digits b)).length
    · have hdigits := strcmp_digits (significant_isDigit hda) (significant_isDigit hdb) hlen
      rw [value_significant, value_significant] at hdigits
      rw [if_neg (not_not.mpr hlen), hdigits]
      cases compare (value (digits a)) (value (digits b)) <;> rfl
    · rw [if_pos hlen]
      rcases Nat.lt_or_gt_of_ne hlen with hlt | hgt
      · rw [if_pos hlt, Nat.compare_eq_lt.mpr (value_lt_of_length hda hdb h.1 hlt)]
        rfl
      · rw [if_neg (Nat.lt_asymm hgt),
          Nat.compare_eq_gt.mpr (value_lt_of_length hdb hda h.2.1 hgt)]
        rfl
  · rw [mixed_other h, if_pos (not_not.mp (mt (sameStem_iff a b).mpr h))]

theorem ingestCmp_swap (a b : Name) : ingestCmp a b = (ingestCmp b a).swap := by
  rw [ingestCmp_eq, ingestCmp_eq]
  exact mixed_swap sameStem_classes

theorem ingestCmp_zero (a b : Name) : ingestCmp a b = .eq ↔ a = b := by
  rw [ingestCmp_eq]
  exact mixed_eq

theorem ingestCmp_number (h : SameStem a b) (hlt : number a < number b) :
    ingestCmp a b = .lt := by
  have hbyNumber : byNumber a b = (compare (number a) (number b)).then (strcmp a b) := rfl
  rw [ingestCmp_eq, mixed_same h, hbyNumber, Nat.compare_eq_lt.mpr hlt]
  rfl

def accepted (S : Set Name) : Set Name := {a | a ∈ S ∧ segmentName a = true}

structure Plain (S : Set Name) (r : Reader) (d : Directory) : Prop where
  unlisted : choose r d.files = none
  names : ∀ n ∈ d.names, n ∈ S

inductive Reads (S : Set Name) (directory : List UInt8) : Reader → Prop where
  | new : Reads S directory (Reader.new directory)
  | next {r : Reader} (d : Directory) : Reads S directory r → Plain S r d →
      Reads S directory (next r d nameMax).2

structure Ordered (S : Set Name) : Prop where
  swap : ∀ a ∈ accepted S, ∀ b ∈ accepted S, ingestCmp a b = (ingestCmp b a).swap
  zero : ∀ a ∈ accepted S, ∀ b ∈ accepted S, ingestCmp a b = .eq ↔ a = b
  trans : TransOn ingestCmp (accepted S)
  numbers : ∀ a ∈ accepted S, ∀ b ∈ accepted S, SameStem a b → number a < number b →
    ingestCmp a b = .lt
  listing : ∀ directory r, Reads S directory r → ∀ d, Plain S r d → ∀ names,
    names.Perm d.names → next r { d with names := names } nameMax = next r d nameMax
  taken : ∀ directory r, Reads S directory r → ∀ last ∈ r.lastName, ∀ n ∈ accepted S,
    ingestCmp n last = .gt → seen r n true = false

structure Between (a b c : Name) : Prop where
  inside : SameStem a b
  outside : ¬SameStem a c
  along : number a < number b
  back : strcmp b c = .lt
  above : strcmp c a = .lt

def Clear (S : Set Name) : Prop :=
  ∀ a ∈ accepted S, ∀ b ∈ accepted S, ∀ c ∈ accepted S, ¬Between a b c

theorem crossed_iff : Crossed SameStem byNumber strcmp a b c ↔ Between a b c := by
  have hbyNumber : byNumber a b = (compare (number a) (number b)).then (strcmp a b) := rfl
  constructor
  · rintro ⟨hin, hout, halong, hback, hover⟩
    refine ⟨hin, hout, ?_, hback, hover⟩
    have hba : strcmp b a = .lt := TransCmp.lt_trans hback hover
    have hab : strcmp a b = (strcmp b a).swap := OrientedCmp.eq_swap
    rw [hbyNumber, hab, hba] at halong
    cases hcmp : compare (number a) (number b) with
    | lt => exact Nat.compare_eq_lt.mp hcmp
    | eq =>
      rw [hcmp] at halong
      cases halong
    | gt =>
      rw [hcmp] at halong
      cases halong
  · rintro ⟨hin, hout, hlt, hback, hover⟩
    refine ⟨hin, hout, ?_, hback, hover⟩
    rw [hbyNumber, Nat.compare_eq_lt.mpr hlt]
    rfl

theorem trans_iff (S : Set Name) : TransOn ingestCmp (accepted S) ↔ Clear S := by
  have hfun : ingestCmp = mixed SameStem byNumber strcmp := by
    funext a b
    exact ingestCmp_eq a b
  rw [hfun, transOn_mixed_iff sameStem_classes]
  simp only [crossed_iff, Clear]

theorem lower_eq (names : List Name) : names.foldl lower none = least ingestCmp names := by
  have hfun : lower = keepLeast ingestCmp := by
    funext best name
    cases best <;> rfl
  rw [hfun]
  rfl

theorem next_plain {S : Set Name} {r : Reader} {d : Directory} (h : Plain S r d) (cap : ℕ) :
    next r d cap = if d.opens = false then (.error, r) else nextByName r d cap := by
  unfold next nextByPlaylist
  rw [h.unlisted]
  by_cases hopen : d.opens = false
  · rw [if_pos hopen, if_pos hopen]
  · rw [if_neg hopen, if_neg hopen]
    rfl

theorem mem_unread {r : Reader} {names : List Name} {n : Name} :
    n ∈ unread r names ↔ n ∈ names ∧ segmentName n = true ∧ seen r n true = false := by
  simp [unread]

structure Marked (S : Set Name) (r : Reader) : Prop where
  last : ∀ last ∈ r.lastName, last ∈ accepted S
  seen : ∀ n ∈ r.seen, n ∈ accepted S ∧ ∃ last ∈ r.lastName, n = last ∨ ingestCmp n last = .lt

theorem mem_record {r : Reader} {name n : Name} (h : n ∈ (record r name).seen) :
    n ∈ r.seen ∨ n = name := by
  have hremember : n ∈ (remember r name).seen → n ∈ r.seen ∨ n = name := by
    unfold remember
    split_ifs
    · intro hn
      simpa using hn
    · intro hn
      exact List.mem_or_eq_of_mem_set hn
  unfold record at h
  by_cases hlen : name.length ≥ nameMax
  · rw [if_pos hlen] at h
    exact Or.inl h
  · rw [if_neg hlen] at h
    dsimp only at h
    split_ifs at h
    · exact hremember h
    · exact hremember h

theorem remember_lastName (r : Reader) (name : Name) : (remember r name).lastName = r.lastName := by
  unfold remember
  split_ifs <;> rfl

theorem record_eq {r : Reader} {name : Name} (hlen : name.length < nameMax) :
    record r name = remember r name ∨
      record r name = { remember r name with lastName := some name } := by
  unfold record
  rw [if_neg (Nat.not_le.mpr hlen)]
  dsimp only
  split_ifs
  · exact Or.inr rfl
  · exact Or.inl rfl

theorem record_lastName {r : Reader} {name : Name} (hlen : name.length < nameMax)
    (hlast : ∀ last ∈ r.lastName, ingestCmp name last = .gt) :
    (record r name).lastName = some name := by
  have hall : (r.lastName.all fun last => ingestCmp name last == .gt) = true := by
    cases hl : r.lastName with
    | none => rfl
    | some last => simpa using hlast last (by simp [hl])
  unfold record
  rw [if_neg (Nat.not_le.mpr hlen)]
  dsimp only
  rw [remember_lastName, if_pos hall]

theorem segmentName_length {name : Name} (h : segmentName name = true) :
    name.length < nameMax := by
  unfold segmentName at h
  by_contra hle
  rw [if_pos (by omega)] at h
  cases h

theorem gt_of_unseen {r : Reader} {name : Name} (hfresh : HlsIngest.seen r name true = false) :
    ∀ last ∈ r.lastName, ingestCmp name last = .gt := by
  intro last hlast
  rw [Option.mem_def] at hlast
  by_contra hne
  unfold HlsIngest.seen at hfresh
  rw [hlast, Option.any_some, Bool.true_and, if_pos (by simpa using hne)] at hfresh
  cases hfresh

theorem Marked.record {S : Set Name} {r : Reader} {name : Name}
    (ht : TransOn ingestCmp (accepted S)) (h : Marked S r) (hname : name ∈ accepted S)
    (hfresh : HlsIngest.seen r name true = false) : Marked S (record r name) := by
  have hgt := gt_of_unseen hfresh
  have hnew := record_lastName (segmentName_length hname.2) hgt
  constructor
  · intro last hlast
    rw [hnew, Option.mem_some] at hlast
    rw [← hlast]
    exact hname
  · intro n hn
    rcases mem_record hn with hold | rfl
    · obtain ⟨hacc, last, hlast, hle⟩ := h.seen n hold
      refine ⟨hacc, name, hnew, Or.inr ?_⟩
      have hlt : ingestCmp last name = .lt := by
        rw [ingestCmp_swap, hgt last hlast]
        rfl
      rcases hle with rfl | hnl
      · exact hlt
      · exact ht n hacc last (h.last last hlast) name hname hnl hlt
    · exact ⟨hname, n, hnew, Or.inl rfl⟩

theorem mem_least {names : List Name} {best : Name}
    (h : least ingestCmp names = some best) : best ∈ names := by
  have hgo : ∀ (names : List Name) (best : Option Name) {m : Name},
      names.foldl (keepLeast ingestCmp) best = some m → best = some m ∨ m ∈ names := by
    intro names
    induction names with
    | nil => exact fun best m hm => Or.inl hm
    | cons x names ih =>
      intro best m hm
      rcases ih _ hm with hkeep | hin
      · cases best with
        | none => exact Or.inr (by simp [Option.some.inj hkeep])
        | some b =>
          rw [keepLeast_some] at hkeep
          split_ifs at hkeep
          · exact Or.inr (by simp [Option.some.inj hkeep])
          · exact Or.inl hkeep
      · exact Or.inr (List.mem_cons_of_mem x hin)
  rcases hgo names none h with hnone | hin
  · cases hnone
  · exact hin

inductive ByName (r : Reader) (names : List Name) : Answer × Reader → Prop where
  | nothing (answer : Answer) : (∀ name, answer ≠ .ok name) → ByName r names (answer, r)
  | returned (name : Name) : name ∈ unread r names → ByName r names (.ok name, record r name)

theorem nextByName_cases (r : Reader) (d : Directory) (cap : ℕ) :
    ByName r d.names (nextByName r d cap) := by
  unfold nextByName
  by_cases hopen : d.opensAgain = false
  · rw [if_pos hopen]
    exact .nothing _ (by simp)
  · rw [if_neg hopen, lower_eq]
    cases hbest : least ingestCmp (unread r d.names) with
    | none => exact .nothing _ (by simp)
    | some best =>
      dsimp only
      split_ifs
      · exact .nothing _ (by simp)
      · exact .returned best (mem_least hbest)

theorem Marked.nextByName {S : Set Name} {r : Reader} {d : Directory}
    (ht : TransOn ingestCmp (accepted S)) (h : Marked S r) (hnames : ∀ n ∈ d.names, n ∈ S)
    (cap : ℕ) : Marked S (nextByName r d cap).2 := by
  have hcases := nextByName_cases r d cap
  generalize HlsIngest.nextByName r d cap = outcome at hcases
  cases hcases with
  | nothing => exact h
  | returned name hin =>
    obtain ⟨hlisted, hsegment, hfresh⟩ := mem_unread.mp hin
    exact h.record ht ⟨hnames name hlisted, hsegment⟩ hfresh

theorem Reads.marked {S : Set Name} {directory : List UInt8} {r : Reader}
    (ht : TransOn ingestCmp (accepted S)) (h : Reads S directory r) : Marked S r := by
  induction h with
  | new =>
    constructor
    · intro last hlast
      cases hlast
    · intro n hn
      cases hn
  | next d _ hplain ih =>
    rw [next_plain hplain]
    split_ifs
    · exact ih
    · exact ih.nextByName ht hplain.names nameMax

theorem Plain.listed {S : Set Name} {r : Reader} {d : Directory} {names : List Name}
    (h : Plain S r d) (hp : names.Perm d.names) : Plain S r { d with names := names } :=
  ⟨h.unlisted, fun n hn => h.names n (hp.mem_iff.mp hn)⟩

theorem next_listing {S : Set Name} {r : Reader} {d : Directory} {names : List Name}
    (ht : TransOn ingestCmp (accepted S)) (h : Plain S r d) (hp : names.Perm d.names)
    (cap : ℕ) : next r { d with names := names } cap = next r d cap := by
  have hleast : least ingestCmp (unread r names) = least ingestCmp (unread r d.names) := by
    apply least_congr ht ingestCmp_swap fun a b => (ingestCmp_zero a b).mp
    · intro n hn
      obtain ⟨hin, hsegment, -⟩ := mem_unread.mp hn
      exact ⟨h.names n (hp.mem_iff.mp hin), hsegment⟩
    · intro n
      rw [mem_unread, mem_unread, hp.mem_iff]
  rw [next_plain h, next_plain (h.listed hp)]
  dsimp only [nextByName]
  rw [lower_eq, lower_eq, hleast]

theorem Marked.taken {S : Set Name} {r : Reader} (h : Marked S r) {last n : Name}
    (hlast : last ∈ r.lastName) (hgt : ingestCmp n last = .gt) :
    HlsIngest.seen r n true = false := by
  have hsome : r.lastName = some last := hlast
  have hring : n ∉ r.seen := by
    intro hin
    obtain ⟨-, last', hlast', hle⟩ := h.seen n hin
    rw [hsome] at hlast'
    rw [← Option.some.inj hlast'] at hle
    rcases hle with rfl | hlt
    · rw [(ingestCmp_zero n n).mpr rfl] at hgt
      cases hgt
    · rw [hgt] at hlt
      cases hlt
  unfold HlsIngest.seen
  rw [hsome, Option.any_some, hgt]
  simpa using hring

/-- The order of segment names does what it is for, over the names of a set, exactly when no
three of them stand in a circle. -/
theorem ordered_iff (S : Set Name) : Ordered S ↔ Clear S := by
  constructor
  · exact fun h => (trans_iff S).mp h.trans
  · intro hclear
    have ht := (trans_iff S).mpr hclear
    constructor
    · exact fun a _ b _ => ingestCmp_swap a b
    · exact fun a _ b _ => ingestCmp_zero a b
    · exact ht
    · exact fun a _ b _ hsame hlt => ingestCmp_number hsame hlt
    · exact fun directory r _ d hplain names hp => next_listing ht hplain hp nameMax
    · exact fun directory r hr last hlast n _ hgt => (hr.marked ht).taken hlast hgt

/-- `x9.ts`, `x10.ts` and `x5a.ts` each come before the next one, round and round. -/
theorem names_in_a_circle :
    let names := ["x9.ts", "x10.ts", "x5a.ts"].map ascii
    (∀ n ∈ names, segmentName n = true) ∧
      ingestCmp (ascii "x9.ts") (ascii "x10.ts") = .lt ∧
      ingestCmp (ascii "x10.ts") (ascii "x5a.ts") = .lt ∧
      ingestCmp (ascii "x5a.ts") (ascii "x9.ts") = .lt ∧
      ¬Ordered Set.univ := by
  refine ⟨by decide, by decide, by decide, by decide, fun h => ?_⟩
  have hlt := h.trans (ascii "x9.ts") ⟨trivial, by decide⟩ (ascii "x10.ts")
    ⟨trivial, by decide⟩ (ascii "x5a.ts") ⟨trivial, by decide⟩ (by decide) (by decide)
  exact absurd hlt (by decide)

end HlsIngestNames

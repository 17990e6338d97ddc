import NginxMedia.CString
import Mathlib.Data.List.Basic

/-! Resolution of a URL reference against an http or https URL, as RFC 3986 defines it in its
section 5: the base path without its last segment, the reference behind it, and the dot
segments removed. References with an authority of their own but no scheme are not covered. -/
namespace UrlReference

variable {out segs : List (List UInt8)} {seg a b rest path : List UInt8}

/-- The segments `.` and `..`. -/
def Dots (seg : List UInt8) : Prop := seg = [46] ∨ seg = [46, 46]

instance (seg : List UInt8) : Decidable (Dots seg) := inferInstanceAs (Decidable (_ ∨ _))

/-- The segments of a path, taken to the output one after the other. A dot segment at the end
leaves an empty one. -/
def removeDots (out : List (List UInt8)) : List (List UInt8) → List (List UInt8)
  | [] => out
  | [last] =>
    if last = [46] then out ++ [[]]
    else if last = [46, 46] then out.dropLast ++ [[]]
    else out ++ [last]
  | seg :: next :: rest =>
    if seg = [46] then removeDots out (next :: rest)
    else if seg = [46, 46] then removeDots out.dropLast (next :: rest)
    else removeDots (out ++ [seg]) (next :: rest)

def removeDotSegments : List UInt8 → List UInt8
  | [] => []
  | _ :: rest => 47 :: [47].intercalate (removeDots [] (rest.splitOn 47))

theorem removeDots_clean (h : ∀ seg ∈ segs, ¬ Dots seg) : removeDots out segs = out ++ segs := by
  induction out, segs using removeDots.induct with
  | case1 out => rw [removeDots, List.append_nil]
  | case2 out => exact absurd (Or.inl rfl) (h [46] List.mem_cons_self)
  | case3 out hne => exact absurd (Or.inr rfl) (h [46, 46] List.mem_cons_self)
  | case4 out last hone htwo => rw [removeDots, if_neg hone, if_neg htwo]
  | case5 out next rest ih => exact absurd (Or.inl rfl) (h [46] List.mem_cons_self)
  | case6 out next rest hne ih => exact absurd (Or.inr rfl) (h [46, 46] List.mem_cons_self)
  | case7 out seg next rest hone htwo ih =>
    rw [removeDots, if_neg hone, if_neg htwo, ih fun s hs => h s (List.mem_cons_of_mem _ hs),
      List.append_assoc, List.singleton_append]

theorem removeDots_forall {P : List UInt8 → Prop} (hnil : P []) (hout : ∀ seg ∈ out, P seg)
    (hsegs : ∀ seg ∈ segs, ¬ Dots seg → P seg) : ∀ seg ∈ removeDots out segs, P seg := by
  have hconcat : ∀ {out : List (List UInt8)} {s : List UInt8}, (∀ seg ∈ out, P seg) → P s →
      ∀ seg ∈ out ++ [s], P seg := by
    intro out s hout hs seg hseg
    rcases List.mem_append.mp hseg with h | h
    · exact hout seg h
    · rw [List.mem_singleton.mp h]
      exact hs
  have hdrop : ∀ {out : List (List UInt8)}, (∀ seg ∈ out, P seg) →
      ∀ seg ∈ out.dropLast, P seg := fun hout seg hseg => hout seg (List.dropLast_subset _ hseg)
  induction out, segs using removeDots.induct with
  | case1 out => rwa [removeDots]
  | case2 out =>
    rw [removeDots, if_pos rfl]
    exact hconcat hout hnil
  | case3 out hne =>
    rw [removeDots, if_neg hne, if_pos rfl]
    exact hconcat (hdrop hout) hnil
  | case4 out last hone htwo =>
    rw [removeDots, if_neg hone, if_neg htwo]
    exact hconcat hout (hsegs last List.mem_cons_self fun hd => hd.elim hone htwo)
  | case5 out next rest ih =>
    rw [removeDots, if_pos rfl]
    exact ih hout fun s hs => hsegs s (List.mem_cons_of_mem _ hs)
  | case6 out next rest hne ih =>
    rw [removeDots, if_neg hne, if_pos rfl]
    exact ih (hdrop hout) fun s hs => hsegs s (List.mem_cons_of_mem _ hs)
  | case7 out seg next rest hone htwo ih =>
    rw [removeDots, if_neg hone, if_neg htwo]
    exact ih (hconcat hout (hsegs seg List.mem_cons_self fun hd => hd.elim hone htwo))
      fun s hs => hsegs s (List.mem_cons_of_mem _ hs)

theorem removeDots_ne_nil (h : segs ≠ []) : removeDots out segs ≠ [] := by
  induction out, segs using removeDots.induct with
  | case1 out => exact absurd rfl h
  | case2 out => simp [removeDots]
  | case3 out hne => simp [removeDots]
  | case4 out last hone htwo => simp [removeDots, hone, htwo]
  | case5 out next rest ih => simpa [removeDots] using ih (List.cons_ne_nil _ _)
  | case6 out next rest hne ih => simpa [removeDots] using ih (List.cons_ne_nil _ _)
  | case7 out seg next rest hone htwo ih =>
    simpa [removeDots, hone, htwo] using ih (List.cons_ne_nil _ _)

/-- The bytes of segments, each with the slash in front of it. -/
def size (segs : List (List UInt8)) : ℕ := (segs.map fun seg => seg.length + 1).sum

@[simp] theorem size_append (x y : List (List UInt8)) : size (x ++ y) = size x + size y := by
  simp [size]

@[simp] theorem size_cons (seg : List UInt8) (segs : List (List UInt8)) :
    size (seg :: segs) = seg.length + 1 + size segs := by
  simp [size]

theorem size_dropLast_le (segs : List (List UInt8)) : size segs.dropLast ≤ size segs := by
  rcases List.eq_nil_or_concat segs with rfl | ⟨init, last, rfl⟩
  · exact Nat.le_refl _
  · rw [List.concat_eq_append, List.dropLast_concat, size_append]
    exact Nat.le_add_right _ _

theorem size_removeDots_le (out segs : List (List UInt8)) :
    size (removeDots out segs) ≤ size out + size segs := by
  induction out, segs using removeDots.induct with
  | case1 out => exact Nat.le_add_right _ _
  | case2 out => simp [removeDots, size]
  | case3 out hne =>
    have := size_dropLast_le out
    simp [removeDots, size] at this ⊢
    omega
  | case4 out last hone htwo => simp [removeDots, hone, htwo]
  | case5 out next rest ih =>
    rw [removeDots, if_pos rfl]
    rw [size_cons _ (next :: rest)]
    omega
  | case6 out next rest hne ih =>
    have := size_dropLast_le out
    rw [removeDots, if_neg hne, if_pos rfl]
    rw [size_cons _ (next :: rest)]
    omega
  | case7 out seg next rest hone htwo ih =>
    rw [removeDots, if_neg hone, if_neg htwo]
    rw [size_append, size_cons seg []] at ih
    rw [size_cons seg (next :: rest)]
    simp only [size, List.map_nil, List.sum_nil] at ih ⊢
    omega

theorem intercalate_length (h : segs ≠ []) :
    ([47].intercalate segs : List UInt8).length + 1 = size segs := by
  induction segs with
  | nil => exact absurd rfl h
  | cons seg rest ih =>
    cases rest with
    | nil => simp [size]
    | cons next rest =>
      rw [List.intercalate_cons_cons, size_cons, ← ih (List.cons_ne_nil _ _)]
      simp only [List.length_append, List.length_singleton]
      omega

theorem removeDotSegments_length_le (path : List UInt8) :
    (removeDotSegments path).length ≤ path.length := by
  cases path with
  | nil => exact Nat.le_refl _
  | cons x rest =>
    have hsegs : rest.splitOn (47 : UInt8) ≠ [] := List.splitOn_ne_nil _ _
    have hlen := intercalate_length (@removeDots_ne_nil [] _ hsegs)
    have hle := size_removeDots_le [] (rest.splitOn 47)
    have hrest := intercalate_length hsegs
    rw [List.intercalate_splitOn] at hrest
    have hzero : size [] = 0 := rfl
    rw [removeDotSegments, List.length_cons, List.length_cons]
    omega

/-- A path without dot segments behind its first slash. -/
def Straight : List UInt8 → Prop
  | [] => True
  | _ :: rest => ∀ seg ∈ rest.splitOn 47, ¬ Dots seg

instance (path : List UInt8) : Decidable (Straight path) := by
  cases path <;> simp only [Straight] <;> infer_instance

theorem removeDotSegments_eq_iff (h : path = [] ∨ ∃ rest, path = 47 :: rest) :
    removeDotSegments path = path ↔ Straight path := by
  rcases h with rfl | ⟨rest, rfl⟩
  · exact iff_of_true rfl trivial
  · have hsegs : rest.splitOn (47 : UInt8) ≠ [] := List.splitOn_ne_nil _ _
    constructor
    · intro heq
      have hinter : ([47].intercalate (removeDots [] (rest.splitOn 47)) : List UInt8) = rest :=
        (List.cons.inj heq).2
      have hslashless : ∀ seg ∈ removeDots [] (rest.splitOn 47), (47 : UInt8) ∉ seg :=
        removeDots_forall List.not_mem_nil (fun _ hs => absurd hs List.not_mem_nil)
          fun seg hseg _ => CString.not_mem_splitOn 47 rest seg hseg
      have hsplit := List.splitOn_intercalate 47 hslashless (removeDots_ne_nil hsegs)
      rw [hinter] at hsplit
      have hclean : ∀ seg ∈ removeDots [] (rest.splitOn 47), ¬ Dots seg :=
        removeDots_forall (by simp [Dots]) (fun _ hs => absurd hs List.not_mem_nil)
          fun _ _ hd => hd
      rw [← hsplit] at hclean
      exact hclean
    · intro hclean
      rw [removeDotSegments, removeDots_clean hclean, List.nil_append, List.intercalate_splitOn]

def lower (b : UInt8) : UInt8 := if 65 ≤ b ∧ b ≤ 90 then b + 32 else b

def http : List UInt8 := [104, 116, 116, 112, 58, 47, 47]

def https : List UInt8 := [104, 116, 116, 112, 115, 58, 47, 47]

def schemeOf (url : List UInt8) : Option (List UInt8) :=
  if (url.take 7).map lower = http then some (url.take 7)
  else if (url.take 8).map lower = https then some (url.take 8)
  else none

/-- A path ends at `?` and `#`, an authority also at a slash. -/
def inPath (b : UInt8) : Bool := b != 63 && b != 35

def inAuthority (b : UInt8) : Bool := b != 47 && inPath b

/-- The parts of what follows the scheme; `tail` is the query and the fragment. -/
def authority (hier : List UInt8) : List UInt8 := hier.takeWhile inAuthority

def pathOf (ref : List UInt8) : List UInt8 := ref.takeWhile inPath

def tailOf (ref : List UInt8) : List UInt8 := ref.dropWhile inPath

def behindAuthority (hier : List UInt8) : List UInt8 := hier.dropWhile inAuthority

def directory (path : List UInt8) : List UInt8 := (path.reverse.dropWhile (· != 47)).reverse

def merge (base path : List UInt8) : List UInt8 :=
  if base = [] then 47 :: path else directory base ++ path

def settle (root path tail : List UInt8) : List UInt8 := root ++ removeDotSegments path ++ tail

def resolve (base ref : List UInt8) : List UInt8 :=
  match schemeOf ref with
  | some scheme =>
    let hier := ref.drop scheme.length
    settle (scheme ++ authority hier) (pathOf (behindAuthority hier))
      (tailOf (behindAuthority hier))
  | none =>
    let scheme := (schemeOf base).getD []
    let hier := base.drop scheme.length
    settle (scheme ++ authority hier)
      (if ref.head? = some 47 then pathOf ref
       else merge (pathOf (behindAuthority hier)) (pathOf ref))
      (tailOf ref)

def AbsolutePath (ref : List UInt8) : Prop :=
  ref.head? = some 47 ∧ ref.take 2 ≠ [47, 47]

def RelativePath (ref : List UInt8) : Prop :=
  pathOf ref ≠ [] ∧ ref.head? ≠ some 47 ∧ (58 : UInt8) ∉ (pathOf ref).takeWhile (· != 47)

instance (ref : List UInt8) : Decidable (AbsolutePath ref) := inferInstanceAs (Decidable (_ ∧ _))

instance (ref : List UInt8) : Decidable (RelativePath ref) := inferInstanceAs (Decidable (_ ∧ _))

theorem pathOf_append_tailOf (ref : List UInt8) : pathOf ref ++ tailOf ref = ref :=
  List.takeWhile_append_dropWhile

theorem authority_append_behind (hier : List UInt8) :
    authority hier ++ behindAuthority hier = hier :=
  List.takeWhile_append_dropWhile

theorem pathOf_behind (hier : List UInt8) :
    pathOf (behindAuthority hier) = [] ∨ ∃ rest, pathOf (behindAuthority hier) = 47 :: rest := by
  unfold pathOf behindAuthority
  cases h : hier.dropWhile inAuthority with
  | nil => exact Or.inl rfl
  | cons x rest =>
    have hx : inAuthority x = false := by
      have := List.head_dropWhile_not inAuthority (by rw [h]; exact List.cons_ne_nil _ _)
      simpa [h] using this
    by_cases hslash : x = 47
    · right
      subst hslash
      exact ⟨rest.takeWhile inPath, rfl⟩
    · left
      have hpath : inPath x = false := by
        simpa [inAuthority, hslash] using hx
      rw [List.takeWhile_cons_of_neg (by simp [hpath])]

variable {url scheme : List UInt8}

theorem lower_slash {b : UInt8} (h : lower b = 47) : b = 47 := by
  unfold lower at h
  split_ifs at h with hup
  · have hsum := congrArg UInt8.toNat h
    have hlow : (65 : UInt8).toNat ≤ b.toNat := UInt8.le_iff_toNat_le.mp hup.1
    have hhigh : b.toNat ≤ (90 : UInt8).toNat := UInt8.le_iff_toNat_le.mp hup.2
    simp only [UInt8.toNat_add, UInt8.toNat_ofNat] at hsum hlow hhigh
    omega
  · exact h

theorem schemeOf_prefix (h : schemeOf url = some scheme) :
    scheme ++ url.drop scheme.length = url := by
  unfold schemeOf at h
  split_ifs at h with hhttp hhttps
  · obtain rfl := Option.some.inj h
    have hlen := congrArg List.length hhttp
    rw [List.length_map] at hlen
    rw [hlen]
    exact List.take_append_drop 7 url
  · obtain rfl := Option.some.inj h
    have hlen := congrArg List.length hhttps
    rw [List.length_map] at hlen
    rw [hlen]
    exact List.take_append_drop 8 url

theorem schemeOf_last (h : schemeOf url = some scheme) :
    (scheme.length = 7 ∨ scheme.length = 8) ∧ ∃ init, scheme = init ++ [47] := by
  have hlast : ∀ {name init : List UInt8}, scheme.map lower = init ++ [47] →
      ∃ init, scheme = init ++ [47] := by
    intro name init hmap
    obtain ⟨a, b, hs, -, hb⟩ := List.map_eq_append_iff.mp hmap
    obtain ⟨x, hx, hlow⟩ := List.map_eq_singleton_iff.mp hb
    exact ⟨a, by rw [hs, hx, lower_slash hlow]⟩
  unfold schemeOf at h
  split_ifs at h with hhttp hhttps
  · obtain rfl := Option.some.inj h
    have hlen := congrArg List.length hhttp
    rw [List.length_map] at hlen
    exact ⟨Or.inl hlen, @hlast http [104, 116, 116, 112, 58, 47] hhttp⟩
  · obtain rfl := Option.some.inj h
    have hlen := congrArg List.length hhttps
    rw [List.length_map] at hlen
    exact ⟨Or.inr hlen, @hlast https [104, 116, 116, 112, 115, 58, 47] hhttps⟩

theorem schemeOf_append (h : schemeOf url = some scheme) (more : List UInt8) :
    schemeOf (scheme ++ more) = some scheme := by
  unfold schemeOf at h ⊢
  split_ifs at h with hhttp hhttps
  · obtain rfl := Option.some.inj h
    have hlen := congrArg List.length hhttp
    rw [List.length_map] at hlen
    have htake : (url.take 7 ++ more).take 7 = url.take 7 := List.take_left' hlen
    rw [htake, if_pos hhttp]
  · obtain rfl := Option.some.inj h
    have hlen := congrArg List.length hhttps
    rw [List.length_map] at hlen
    have hlen8 : (url.take 8).length = 8 := hlen
    have htake : (url.take 8 ++ more).take 8 = url.take 8 := List.take_left' hlen8
    have hseven : (url.take 8 ++ more).take 7 = url.take 7 := by
      rw [List.take_append_of_le_length (by omega), List.take_take]
      rfl
    rw [hseven, if_neg hhttp, htake, if_pos hhttps]

theorem exists_last_slash {l : List UInt8} (h : (47 : UInt8) ∈ l) :
    ∃ a b, l = a ++ 47 :: b ∧ (47 : UInt8) ∉ b := by
  obtain ⟨b, a, hrev, hb⟩ := List.eq_append_cons_of_mem (List.mem_reverse.mpr h)
  refine ⟨a.reverse, b.reverse, ?_, fun hm => hb (List.mem_reverse.mp hm)⟩
  rw [← List.reverse_reverse l, hrev]
  simp

theorem directory_last {a b : List UInt8} (hb : (47 : UInt8) ∉ b) :
    directory (a ++ 47 :: b) = a ++ [47] := by
  have hdrop : (b.reverse ++ 47 :: a.reverse).dropWhile (· != 47) = 47 :: a.reverse := by
    rw [List.dropWhile_append_of_pos]
    · rfl
    · intro x hx
      exact bne_iff_ne.mpr fun h => hb (by rw [← h]; exact List.mem_reverse.mp hx)
  unfold directory
  rw [List.reverse_append, List.reverse_cons, List.append_assoc, List.singleton_append, hdrop]
  simp

theorem directory_length_le (l : List UInt8) : (directory l).length ≤ l.length := by
  unfold directory
  have hle := (List.dropWhile_sublist (fun b : UInt8 => b != 47) (l := l.reverse)).length_le
  rwa [List.length_reverse] at hle ⊢

theorem directory_path (h : path = [] ∨ ∃ rest, path = 47 :: rest) (hne : path ≠ []) :
    ∃ a b, path = a ++ 47 :: b ∧ (47 : UInt8) ∉ b ∧ directory path = a ++ [47] ∧
      ∃ rest, directory path = 47 :: rest := by
  obtain ⟨rest, rfl⟩ := h.resolve_left hne
  obtain ⟨a, b, hab, hb⟩ := exists_last_slash (List.mem_cons_self (a := (47 : UInt8)) (l := rest))
  refine ⟨a, b, hab, hb, by rw [hab, directory_last hb], ?_⟩
  rw [hab, directory_last hb]
  cases a with
  | nil => exact ⟨[], rfl⟩
  | cons x a =>
    obtain ⟨rfl, -⟩ := List.cons.inj hab
    exact ⟨a ++ [47], rfl⟩

theorem merge_slash (h : path = [] ∨ ∃ rest, path = 47 :: rest) (ref : List UInt8) :
    merge path ref = [] ∨ ∃ rest, merge path ref = 47 :: rest := by
  right
  unfold merge
  split_ifs with hne
  · exact ⟨ref, rfl⟩
  · obtain ⟨-, -, -, -, -, rest, hdir⟩ := directory_path h hne
    exact ⟨rest ++ ref, by rw [hdir, List.cons_append]⟩

end UrlReference

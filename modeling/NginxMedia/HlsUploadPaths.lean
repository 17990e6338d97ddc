import NginxMedia.ByteString
import NginxMedia.CString

/-! Where the upload endpoint of `ngx_media_api_module.c` puts and removes objects: the raw URI
and the configured directory of a source are checked byte by byte, joined, and handed to the
operating system as C strings. -/
namespace HlsUploadPaths

open ByteString CString

abbrev Str := List UInt8

def keyMax : ℕ := 34
def depthMax : ℕ := 4

def badRequest : ℕ := 400
def notFound : ℕ := 404
def unsupportedType : ℕ := 415
def serverError : ℕ := 500

/-- `[A-Za-z0-9._-]` -/
def safe (c : UInt8) : Bool :=
  97 ≤ c && c ≤ 122 || 65 ≤ c && c ≤ 90 || 48 ≤ c && c ≤ 57 || c == 45 || c == 95 || c == 46

def lower (c : UInt8) : UInt8 := if 65 ≤ c ∧ c ≤ 90 then c + 32 else c

def suffixed (name suffix : Str) : Bool :=
  decide (name.length > suffix.length) &&
    (name.drop (name.length - suffix.length)).map lower == suffix

def unsupported : List Str :=
  [ascii ".m4s", ascii ".mp4", ascii ".m4v", ascii ".m4a", ascii ".cmfv", ascii ".cmfa",
    ascii ".cmft", ascii ".cmfm", ascii ".init", ascii ".header", ascii ".mpd", ascii ".key",
    ascii ".vtt", ascii ".aac"]

structure Object where
  key : Str
  rel : Str
  name : Str
  deriving DecidableEq

/-- The components of the object path from `rest` on, `left` of them at most; the last one is
the name. -/
def objectLoop : (left : ℕ) → Str → Option Str
  | 0, _ => none
  | left + 1, rest =>
    let part := rest.takeWhile (· != 47)
    if part.all safe = false ∨ part = [] ∨ part.head? = some 46 then none
    else
      match rest.dropWhile (· != 47) with
      | [] => some part
      | _ :: next => if next = [] then none else objectLoop left next

def behindLocation (uri location : Str) : Str :=
  if 0 < location.length ∧ location.length ≤ uri.length ∧
      strncmpEq location.length uri location ∧ location.getLast? = some 47 then
    uri.drop location.length
  else (uri.reverse.takeWhile (· != 47)).reverse

def ingestPath (uri location : Str) (delete : Bool) : Except ℕ Object :=
  if 63 ∈ uri ∨ 37 ∈ uri then .error badRequest
  else
    let rest := behindLocation uri location
    let key := rest.takeWhile (· != 47)
    match rest.dropWhile (· != 47) with
    | [] => .error notFound
    | _ :: rel =>
      if key = [] ∨ key.length ≥ keyMax ∨ key.head? = some 46 then .error notFound
      else if key.all safe = false then .error notFound
      else if rel.length = 0 ∨ rel.length > 255 then .error badRequest
      else
        match objectLoop depthMax rel with
        | none => .error badRequest
        | some name =>
          if delete then .ok ⟨key, rel, name⟩
          else if suffixed name (ascii ".ts") || suffixed name (ascii ".m3u8") then
            .ok ⟨key, rel, name⟩
          else if unsupported.any (suffixed name) then .error unsupportedType
          else .error badRequest

structure Source where
  hlsPush : Bool
  path : Str
  deriving DecidableEq

def trimFront : Str → Str
  | 47 :: b :: rest => trimFront (b :: rest)
  | path => path

def trim (path : Str) : Str := (trimFront path.reverse).reverse

def belowRoot (root path : Str) : Option Str :=
  if root = [47] then
    if path.length ≤ 1 ∨ path.head? ≠ some 47 then none else some (path.drop 1)
  else if path.length ≤ root.length + 1 ∨ strncmpEq root.length path root = false ∨
      path[root.length]? ≠ some 47 then none
  else some (path.drop (root.length + 1))

/-- A component that names an entry of its directory. -/
def Proper (part : Str) : Prop := part ≠ [] ∧ part ≠ [46] ∧ part ≠ [46, 46]

instance (part : Str) : Decidable (Proper part) := inferInstanceAs (Decidable (_ ∧ _))

def ingestSource (lookup : Str → Option Source) (key root : Str) : Except ℕ Source :=
  if key.length = 0 then .error notFound
  else
    match lookup key with
    | none => .error notFound
    | some source =>
      if source.hlsPush = false then .error notFound
      else
        match belowRoot (trim root) (trim source.path) with
        | none => .error notFound
        | some rest =>
          if (rest.splitOn 47).all fun part => decide (Proper part) then .ok source
          else .error notFound

inductive Op where
  | mkdir (path : Str)
  | stat (path : Str)
  | rename (path : Str)
  | unlink (path : Str)
  | rmdir (path : Str)
  deriving DecidableEq

def Op.path : Op → Str
  | .mkdir path | .stat path | .rename path | .unlink path | .rmdir path => chars path

/-- Answers of the operating system and of the server around the handlers. `unlink` gives the
status of a failure. -/
structure Env where
  mkdir : Str → Bool
  exists? : Str → Bool
  rename : Str → Bool
  unlink : Str → Option ℕ
  spooled : Bool
  discarded : Bool
  allocated : Bool

structure Outcome where
  ops : List Op
  status : ℕ

def refused (status : ℕ) : Outcome := ⟨[], status⟩

/-- `ngx_media_hls_ingest_target()` without the NUL at its end. -/
def ingestTarget (dir rel : Str) : Str := dir ++ [47] ++ rel

/-- The loop of `ngx_media_hls_ingest_parents()`: `done` is what it has passed. -/
def parentsLoop (env : Env) (done : Str) : Str → List Op × Bool
  | [] => ([], true)
  | b :: rest =>
    if b = 0 then ([], true)
    else if b ≠ 47 then parentsLoop env (done ++ [b]) rest
    else if env.mkdir (chars done) = false then ([.mkdir done], false)
    else
      (.mkdir done :: (parentsLoop env (done ++ [b]) rest).1,
        (parentsLoop env (done ++ [b]) rest).2)

def ingestParents (env : Env) (target : Str) (rootLen : ℕ) : List Op × Bool :=
  parentsLoop env (target.take (rootLen + 1)) (target.drop (rootLen + 1))

structure Request where
  delete : Bool
  uri : Str
  location : Str
  root : Str
  lookup : Str → Option Source

/-- The checks with which both handlers begin. -/
def admitted (r : Request) : Except ℕ (Object × Source) :=
  if r.root = [] then .error serverError
  else
    match ingestPath r.uri r.location r.delete with
    | .error status => .error status
    | .ok object =>
      match ingestSource r.lookup object.key r.root with
      | .error status => .error status
      | .ok source => .ok (object, source)

def ingestReady (env : Env) (r : Request) : Outcome :=
  match admitted r with
  | .error status => refused status
  | .ok (object, source) =>
    if env.spooled = false then refused badRequest
    else if env.allocated = false then refused serverError
    else
      let target := ingestTarget (trim source.path) object.rel
      match ingestParents env target (trim r.root).length with
      | (ops, false) => ⟨ops, serverError⟩
      | (ops, true) =>
        ⟨ops ++ [.stat target, .rename target],
          if env.rename (chars target) = false then serverError
          else if env.exists? (chars target) then 204 else 201⟩

def ingestDelete (env : Env) (r : Request) : Outcome :=
  match admitted r with
  | .error status => refused status
  | .ok (object, source) =>
    if env.discarded = false then refused serverError
    else if env.allocated = false then refused serverError
    else
      let dir := trim source.path
      let target := ingestTarget dir object.rel
      match env.unlink (chars target) with
      | some status => ⟨[.unlink target], status⟩
      | none =>
        match strrchr target 47 with
        | some slash =>
          if slash > dir.length then ⟨[.unlink target, .rmdir (target.take slash)], 200⟩
          else ⟨[.unlink target], 200⟩
        | none => ⟨[.unlink target], 200⟩

def handle (env : Env) (r : Request) : Outcome :=
  if r.delete then ingestDelete env r else ingestReady env r

/-- Components, each behind a slash. -/
def joined (parts : List Str) : Str := parts.flatMap fun part => 47 :: part

@[simp] theorem joined_nil : joined [] = [] := rfl

@[simp] theorem joined_cons (part : Str) (rest : List Str) :
    joined (part :: rest) = 47 :: (part ++ joined rest) := by
  simp [joined]

@[simp] theorem joined_append (x y : List Str) : joined (x ++ y) = joined x ++ joined y := by
  simp [joined]

theorem joined_intercalate {parts : List Str} (h : parts ≠ []) :
    joined parts = 47 :: [47].intercalate parts := by
  induction parts with
  | nil => exact absurd rfl h
  | cons part rest ih =>
    cases rest with
    | nil => simp
    | cons next rest =>
      rw [joined_cons, ih (List.cons_ne_nil _ _), List.intercalate_cons_cons, List.append_assoc,
        List.singleton_append]

theorem joined_splitOn (rest : Str) : joined (rest.splitOn 47) = 47 :: rest := by
  rw [joined_intercalate (List.splitOn_ne_nil 47 rest), List.intercalate_splitOn]

theorem joined_cut {parts : List Str} (h : ∀ part ∈ parts, (47 : UInt8) ∉ part) {a b : Str}
    (hcut : joined parts = a ++ 47 :: b) :
    ∃ front back, parts = front ++ back ∧ a = joined front := by
  induction parts generalizing a with
  | nil =>
    rw [joined_nil] at hcut
    exact absurd hcut.symm (by simp)
  | cons part rest ih =>
    cases a with
    | nil => exact ⟨[], part :: rest, rfl, rfl⟩
    | cons x a =>
      rw [joined_cons, List.cons_append] at hcut
      obtain ⟨rfl, htail⟩ := List.cons.inj hcut
      have hpart := h part List.mem_cons_self
      -- the slash is not in the first component
      rcases List.append_eq_append_iff.mp htail with ⟨c, rfl, hrest⟩ | ⟨c, rfl, hrest⟩
      · obtain ⟨front, back, hsplit, rfl⟩ :=
          ih (fun p hp => h p (List.mem_cons_of_mem part hp)) hrest
        exact ⟨part :: front, back, by rw [hsplit, List.cons_append], by rw [joined_cons]⟩
      · cases c with
        | nil =>
          refine ⟨[a], rest, by rw [List.append_nil]; rfl, ?_⟩
          rw [joined_cons, joined_nil, List.append_nil]
        | cons y c =>
          obtain ⟨rfl, -⟩ := List.cons.inj hrest
          exact absurd (List.mem_append_right a List.mem_cons_self) hpart

def Good (part : Str) : Prop := Proper part ∧ (47 : UInt8) ∉ part

def stem (root : Str) : Str := if trim root = [47] then [] else trim root

theorem objectLoop_joined {left : ℕ} {rest name : Str} (h : objectLoop left rest = some name) :
    ∃ parts, parts ≠ [] ∧ joined parts = 47 :: rest ∧
      ∀ part ∈ parts, Good part ∧ (0 : UInt8) ∉ part := by
  induction left generalizing rest with
  | zero => cases h
  | succ left ih =>
    unfold objectLoop at h
    dsimp only at h
    split_ifs at h with hbad
    obtain ⟨hsafe, hne, hdot⟩ : (rest.takeWhile (· != 47)).all safe = true ∧
        rest.takeWhile (· != 47) ≠ [] ∧ (rest.takeWhile (· != 47)).head? ≠ some 46 := by
      simpa [not_or] using hbad
    have hgood : Good (rest.takeWhile (· != 47)) ∧ (0 : UInt8) ∉ rest.takeWhile (· != 47) := by
      refine ⟨⟨⟨hne, fun h1 => hdot (by rw [h1]; rfl), fun h2 => hdot (by rw [h2]; rfl)⟩, ?_⟩, ?_⟩
      · intro hmem
        exact absurd (List.mem_takeWhile_imp hmem) (by decide)
      · intro hmem
        exact absurd (List.all_eq_true.mp hsafe 0 hmem) (by decide)
    have hsplit : rest.takeWhile (· != 47) ++ rest.dropWhile (· != 47) = rest :=
      List.takeWhile_append_dropWhile
    generalize rest.takeWhile (· != 47) = part at h hgood hsplit
    cases hback : rest.dropWhile (· != 47) with
    | nil =>
      rw [hback, List.append_nil] at hsplit
      refine ⟨[part], List.cons_ne_nil _ _, by simp [hsplit], fun q hq => ?_⟩
      rw [List.mem_singleton.mp hq]
      exact hgood
    | cons slash next =>
      rw [hback] at h hsplit
      dsimp only at h
      split_ifs at h with hnext
      obtain ⟨parts, -, hjoin, hall⟩ := ih h
      have hslash : slash = 47 := by
        have := List.head_dropWhile_not (· != (47 : UInt8)) (l := rest)
          (by rw [hback]; exact List.cons_ne_nil _ _)
        simpa [hback] using this
      refine ⟨part :: parts, List.cons_ne_nil _ _, ?_, fun q hq => ?_⟩
      · rw [joined_cons, hjoin, ← hsplit, hslash]
      · rcases List.mem_cons.mp hq with rfl | hq
        · exact hgood
        · exact hall q hq

theorem ingestPath_joined {uri location : Str} {delete : Bool} {object : Object}
    (h : ingestPath uri location delete = .ok object) :
    ∃ parts, parts ≠ [] ∧ joined parts = 47 :: object.rel ∧
      ∀ part ∈ parts, Good part ∧ (0 : UInt8) ∉ part := by
  unfold ingestPath at h
  dsimp only at h
  split at h
  · cases h
  · split at h
    · cases h
    · next rel _ =>
      split at h
      · cases h
      · split at h
        · cases h
        · split at h
          · cases h
          · split at h
            · cases h
            · next name hname =>
              have hrel : object.rel = rel := by
                split_ifs at h <;> cases h <;> rfl
              rw [hrel]
              exact objectLoop_joined hname

theorem ingestSource_joined {lookup : Str → Option Source} {key root : Str} {source : Source}
    (h : ingestSource lookup key root = .ok source) (htext : (0 : UInt8) ∉ trim source.path) :
    ∃ parts, parts ≠ [] ∧ trim source.path = stem root ++ joined parts ∧
      ∀ part ∈ parts, Good part := by
  unfold ingestSource at h
  split_ifs at h with hkey
  split at h
  · cases h
  · next found _ =>
    split_ifs at h with hpush
    split at h
    · cases h
    · next rest hrest =>
      split_ifs at h with hproper
      cases h
      have hgood : ∀ part ∈ rest.splitOn 47, Good part := fun part hpart =>
        ⟨by simpa using List.all_eq_true.mp hproper part hpart, not_mem_splitOn 47 rest part hpart⟩
      refine ⟨rest.splitOn 47, List.splitOn_ne_nil 47 rest, ?_, hgood⟩
      rw [joined_splitOn]
      unfold belowRoot at hrest
      unfold stem
      split_ifs at hrest with hroot hshort hno
      · -- everything is below the root directory itself
        cases hrest
        obtain ⟨-, hhead⟩ := not_or.mp hshort
        rw [if_pos hroot, List.nil_append]
        cases hpath : trim source.path with
        | nil =>
          rw [hpath] at hhead
          exact absurd hhead (by simp)
        | cons x path =>
          rw [hpath, not_not, List.head?_cons, Option.some_inj] at hhead
          rw [hhead, List.drop_succ_cons, List.drop_zero]
      · cases hrest
        obtain ⟨-, hno⟩ := not_or.mp hno
        obtain ⟨hcmp, hslash⟩ := not_or.mp hno
        rw [if_neg hroot]
        obtain ⟨htake, -⟩ := take_eq_of_strncmpEq (by simpa using hcmp) htext
        rw [not_not] at hslash
        obtain ⟨hlt, hget⟩ := List.getElem?_eq_some_iff.mp hslash
        conv_lhs => rw [← List.take_append_drop (trim root).length (trim source.path)]
        rw [htake, List.take_length, List.drop_eq_getElem_cons hlt, hget]

theorem admitted_ok {r : Request} {object : Object} {source : Source}
    (h : admitted r = .ok (object, source)) : ingestPath r.uri r.location r.delete = .ok object ∧
      ingestSource r.lookup object.key r.root = .ok source := by
  unfold admitted at h
  split_ifs at h with hroot
  split at h
  · cases h
  · next hpath =>
    split at h
    · cases h
    · next hsource =>
      cases h
      exact ⟨hpath, hsource⟩

structure Confined (root path : Str) (op : Op) : Prop where
  below : ∃ own parts, own ≠ [] ∧ trim path = stem root ++ joined own ∧
    (∀ part ∈ own, Good part) ∧ op.path = stem root ++ joined parts ∧
    (∀ part ∈ parts, Good part) ∧
    (own <+: parts ∧ parts ≠ own ∨ (∃ p, op = .mkdir p) ∧ parts ≠ [] ∧ parts <+: own)

theorem parentsLoop_ops (env : Env) (rest done : Str) {op : Op}
    (h : op ∈ (parentsLoop env done rest).1) :
    ∃ a b, op = .mkdir (done ++ a) ∧ rest = a ++ 47 :: b := by
  induction rest generalizing done with
  | nil => exact absurd h List.not_mem_nil
  | cons x rest ih =>
    have hstep : ∀ {a b}, op = .mkdir (done ++ [x] ++ a) ∧ rest = a ++ 47 :: b →
        ∃ a b, op = .mkdir (done ++ a) ∧ x :: rest = a ++ 47 :: b := by
      rintro a b ⟨hop, hrest⟩
      exact ⟨x :: a, b, by rw [hop, List.append_assoc, List.singleton_append],
        by rw [hrest, List.cons_append]⟩
    unfold parentsLoop at h
    split_ifs at h with hnul hplain hfail
    · exact absurd h List.not_mem_nil
    · obtain ⟨a, b, hab⟩ := ih (done ++ [x]) h
      exact hstep hab
    · rw [List.mem_singleton.mp h]
      exact ⟨[], rest, by rw [List.append_nil], by rw [not_not.mp hplain, List.nil_append]⟩
    · rcases List.mem_cons.mp h with rfl | h
      · exact ⟨[], rest, by rw [List.append_nil], by rw [not_not.mp hplain, List.nil_append]⟩
      · obtain ⟨a, b, hab⟩ := ih (done ++ [x]) h
        exact hstep hab

theorem parentsLoop_through {env : Env} (hmk : ∀ path, env.mkdir path = true) (rest done : Str) :
    (parentsLoop env done rest).2 = true := by
  induction rest generalizing done with
  | nil => rfl
  | cons x rest ih =>
    unfold parentsLoop
    rw [hmk]
    split_ifs with hnul hplain hfail
    · rfl
    · exact ih _
    · cases hfail
    · exact ih _

section Handled

variable {root path rel : Str} {own object : List Str}

theorem ingestTarget_joined (hown : trim path = stem root ++ joined own)
    (hobject : joined object = 47 :: rel) :
    ingestTarget (trim path) rel = stem root ++ joined (own ++ object) := by
  rw [ingestTarget, hown, joined_append, hobject]
  simp only [List.append_assoc, List.singleton_append]

theorem target_cut (hgood : ∀ part ∈ own ++ object, Good part) {a b : Str}
    (hcut : stem root ++ joined (own ++ object) = a ++ 47 :: b)
    (hlong : (stem root).length < a.length) :
    ∃ front, front ≠ [] ∧ front <+: own ++ object ∧ a = stem root ++ joined front := by
  rcases List.append_eq_append_iff.mp hcut with ⟨c, rfl, hrest⟩ | ⟨c, hstem, -⟩
  · obtain ⟨front, back, hsplit, rfl⟩ := joined_cut (fun part hp => (hgood part hp).2) hrest
    refine ⟨front, ?_, ⟨back, hsplit.symm⟩, rfl⟩
    rintro rfl
    rw [joined_nil, List.append_nil] at hlong
    omega
  · have := congrArg List.length hstem
    rw [List.length_append] at this
    omega

theorem stem_length_le (root : Str) : (stem root).length ≤ (trim root).length := by
  unfold stem
  split_ifs
  · exact Nat.zero_le _
  · exact Nat.le_refl _

theorem confined_below (hown : own ≠ []) (hpath : trim path = stem root ++ joined own)
    (hgood : ∀ part ∈ own ++ object, Good part) {op : Op} {front : List Str}
    (hop : op.path = stem root ++ joined front) (hfront : front <+: own ++ object)
    (hcase : own <+: front ∧ front ≠ own ∨ (∃ p, op = .mkdir p) ∧ front ≠ []) :
    Confined root path op := by
  refine ⟨own, front, hown, hpath, fun part hp => hgood part (List.mem_append_left _ hp), hop,
    fun part hp => hgood part (hfront.subset hp), ?_⟩
  rcases hcase with h | ⟨hmk, hne⟩
  · exact Or.inl h
  · rcases List.prefix_or_prefix_of_prefix hfront (List.prefix_append own object) with h | h
    · exact Or.inr ⟨hmk, hne, h⟩
    · by_cases heq : front = own
      · exact Or.inr ⟨hmk, hne, heq ▸ List.prefix_refl _⟩
      · exact Or.inl ⟨h, heq⟩

theorem parents_confined (hown : own ≠ []) (hpath : trim path = stem root ++ joined own)
    (hgood : ∀ part ∈ own ++ object, Good part)
    (htext : (0 : UInt8) ∉ stem root ++ joined (own ++ object)) (env : Env) {op : Op}
    (h : op ∈ (ingestParents env (stem root ++ joined (own ++ object)) (trim root).length).1)
    (hlong : (trim root).length < (stem root ++ joined (own ++ object)).length) :
    Confined root path op := by
  obtain ⟨a, b, rfl, hrest⟩ := parentsLoop_ops env _ _ h
  have hcut : stem root ++ joined (own ++ object) =
      ((stem root ++ joined (own ++ object)).take ((trim root).length + 1) ++ a) ++ 47 :: b := by
    rw [List.append_assoc, ← hrest, List.take_append_drop]
  have hstem := stem_length_le root
  obtain ⟨front, hne, hfront, hfrontPath⟩ := target_cut hgood hcut (by
    rw [List.length_append, List.length_take]
    omega)
  refine confined_below hown hpath hgood ?_ hfront (Or.inr ⟨⟨_, rfl⟩, hne⟩)
  change chars _ = _
  rw [← hfrontPath, chars_of_text]
  rw [hcut] at htext
  exact fun hmem => htext (List.mem_append_left _ hmem)

theorem target_confined (hown : own ≠ []) (hobject : object ≠ [])
    (hpath : trim path = stem root ++ joined own) (hgood : ∀ part ∈ own ++ object, Good part)
    {op : Op} (hop : op.path = stem root ++ joined (own ++ object)) : Confined root path op := by
  refine confined_below hown hpath hgood hop (List.prefix_refl _) (Or.inl ⟨?_, ?_⟩)
  · exact List.prefix_append own object
  · simpa using hobject

theorem parent_confined (hown : own ≠ []) (hobject : object ≠ [])
    (hpath : trim path = stem root ++ joined own) (hgood : ∀ part ∈ own ++ object, Good part)
    (htext : (0 : UInt8) ∉ stem root ++ joined (own ++ object)) {slash : ℕ}
    (hslash : strrchr (stem root ++ joined (own ++ object)) 47 = some slash)
    (hlong : slash > (trim path).length) :
    Confined root path (.rmdir ((stem root ++ joined (own ++ object)).take slash)) := by
  obtain ⟨init, last, rfl⟩ : ∃ init last, object = init ++ [last] := by
    simpa using (List.eq_nil_or_concat object).resolve_left hobject
  have hlast : (47 : UInt8) ∉ last := (hgood last (by simp)).2
  have hsplit : stem root ++ joined (own ++ (init ++ [last])) =
      (stem root ++ joined (own ++ init)) ++ 47 :: last := by
    rw [← List.append_assoc own, joined_append (own ++ init), joined_cons, joined_nil,
      List.append_nil, List.append_assoc]
  rw [hsplit] at htext hslash ⊢
  rw [strrchr_last htext hlast, Option.some_inj] at hslash
  rw [← hslash, List.take_left]
  have hinit : init ≠ [] := by
    rintro rfl
    rw [List.append_nil, ← hpath] at hslash
    omega
  refine confined_below hown hpath hgood ?_ ?_ (Or.inl ⟨List.prefix_append own init, ?_⟩)
  · change chars _ = _
    exact chars_of_text fun hmem => htext (List.mem_append_left _ hmem)
  · rw [← List.append_assoc]
    exact List.prefix_append _ _
  · simpa using hinit

end Handled

def TextDirectories (r : Request) : Prop :=
  ∀ object source, admitted r = .ok (object, source) → (0 : UInt8) ∉ trim source.path

def Contained (r : Request) : Prop :=
  ∀ env, ∀ op ∈ (handle env r).ops, ∀ object source, admitted r = .ok (object, source) →
    Confined r.root source.path op

theorem admitted_joined {r : Request} {object : Object} {source : Source}
    (h : admitted r = .ok (object, source)) (htext : (0 : UInt8) ∉ trim source.path) :
    ∃ own parts, own ≠ [] ∧ parts ≠ [] ∧ trim source.path = stem r.root ++ joined own ∧
      joined parts = 47 :: object.rel ∧ (∀ part ∈ own ++ parts, Good part) ∧
      (0 : UInt8) ∉ stem r.root ++ joined (own ++ parts) := by
  obtain ⟨hpath, hsource⟩ := admitted_ok h
  obtain ⟨parts, hparts, hrel, hgood⟩ := ingestPath_joined hpath
  obtain ⟨own, hown, hdir, hownGood⟩ := ingestSource_joined hsource htext
  refine ⟨own, parts, hown, hparts, hdir, hrel, fun part hp => ?_, ?_⟩
  · rcases List.mem_append.mp hp with hp | hp
    · exact hownGood part hp
    · exact (hgood part hp).1
  · rw [joined_append, ← List.append_assoc, ← hdir]
    intro hmem
    rcases List.mem_append.mp hmem with hmem | hmem
    · exact htext hmem
    · obtain ⟨part, hp, hin⟩ := List.mem_flatMap.mp hmem
      rcases List.mem_cons.mp hin with hzero | hin
      · exact absurd hzero (by decide)
      · exact (hgood part hp).2 hin

theorem ingestReady_confined {r : Request} {object : Object} {source : Source}
    (h : admitted r = .ok (object, source)) (htext : (0 : UInt8) ∉ trim source.path) (env : Env)
    {op : Op} (hop : op ∈ (ingestReady env r).ops) : Confined r.root source.path op := by
  obtain ⟨own, parts, hown, hparts, hdir, hrel, hgood, htarget⟩ := admitted_joined h htext
  have hlong : (trim r.root).length < (stem r.root ++ joined (own ++ parts)).length := by
    obtain ⟨part, rest, rfl⟩ := List.exists_cons_of_ne_nil hown
    have hpart : 0 < part.length :=
      List.length_pos_iff.mpr (hgood part List.mem_cons_self).1.1
    rw [List.cons_append, joined_cons, List.length_append, List.length_cons, List.length_append]
    unfold stem
    split_ifs with hroot
    · rw [hroot, List.length_nil, List.length_singleton]
      omega
    · omega
  have hmade : ∀ op ∈ (ingestParents env (stem r.root ++ joined (own ++ parts))
      (trim r.root).length).1, Confined r.root source.path op := fun op hop =>
    parents_confined hown hdir hgood htarget env hop hlong
  have hobject : ∀ op : Op, op.path = chars (stem r.root ++ joined (own ++ parts)) →
      Confined r.root source.path op := fun op heq =>
    target_confined hown hparts hdir hgood (heq.trans (chars_of_text htarget))
  unfold ingestReady at hop
  rw [h] at hop
  dsimp only at hop
  rw [ingestTarget_joined hdir hrel] at hop
  split at hop
  · exact absurd hop List.not_mem_nil
  · split at hop
    · exact absurd hop List.not_mem_nil
    · split at hop
      · next hmk =>
        exact hmade op (by rw [hmk]; exact hop)
      · next hmk =>
        rcases List.mem_append.mp hop with hop | hop
        · exact hmade op (by rw [hmk]; exact hop)
        · simp only [List.mem_cons, List.not_mem_nil, or_false] at hop
          rcases hop with rfl | rfl
          · exact hobject _ rfl
          · exact hobject _ rfl

theorem ingestDelete_confined {r : Request} {object : Object} {source : Source}
    (h : admitted r = .ok (object, source)) (htext : (0 : UInt8) ∉ trim source.path) (env : Env)
    {op : Op} (hop : op ∈ (ingestDelete env r).ops) : Confined r.root source.path op := by
  obtain ⟨own, parts, hown, hparts, hdir, hrel, hgood, htarget⟩ := admitted_joined h htext
  have hobject : Confined r.root source.path
      (.unlink (stem r.root ++ joined (own ++ parts))) :=
    target_confined hown hparts hdir hgood (chars_of_text htarget)
  unfold ingestDelete at hop
  rw [h] at hop
  dsimp only at hop
  rw [ingestTarget_joined hdir hrel] at hop
  split at hop
  · exact absurd hop List.not_mem_nil
  · split at hop
    · exact absurd hop List.not_mem_nil
    · split at hop
      · rw [List.mem_singleton.mp hop]
        exact hobject
      · split at hop
        · next slash hslash =>
          split at hop
          · next hlong =>
            simp only [List.mem_cons, List.not_mem_nil, or_false] at hop
            rcases hop with rfl | rfl
            · exact hobject
            · exact parent_confined hown hparts hdir hgood htarget hslash hlong
          · rw [List.mem_singleton.mp hop]
            exact hobject
        · rw [List.mem_singleton.mp hop]
          exact hobject

/-- An environment in which everything succeeds. -/
def willing : Env := ⟨fun _ => true, fun _ => false, fun _ => true, fun _ => none, true, true, true⟩

theorem handle_willing {r : Request} {object : Object} {source : Source}
    (h : admitted r = .ok (object, source)) : ∃ op ∈ (handle willing r).ops,
      op.path = chars (ingestTarget (trim source.path) object.rel) ∧ ∀ p, op ≠ .mkdir p := by
  unfold handle
  split
  · refine ⟨.unlink (ingestTarget (trim source.path) object.rel), ?_, rfl, nofun⟩
    unfold ingestDelete
    rw [h]
    dsimp only
    rw [if_neg (by decide), if_neg (by decide)]
    change _ ∈ Outcome.ops (match strrchr _ 47 with
      | some slash => _
      | none => _)
    split
    · split_ifs
      · exact List.mem_cons_self
      · exact List.mem_cons_self
    · exact List.mem_cons_self
  · refine ⟨.rename (ingestTarget (trim source.path) object.rel), ?_, rfl, nofun⟩
    have hmade : (ingestParents willing (ingestTarget (trim source.path) object.rel)
        (trim r.root).length).2 = true := parentsLoop_through (fun _ => rfl) _ _
    unfold ingestReady
    rw [h]
    dsimp only
    rw [if_neg (by decide), if_neg (by decide)]
    split
    · next hmk =>
      rw [hmk] at hmade
      cases hmade
    · exact List.mem_append_right _ (List.mem_cons_of_mem _ List.mem_cons_self)

theorem text_of_contained {r : Request} (hin : Contained r) : TextDirectories r := by
  intro object source hadmit
  obtain ⟨op, hop, hpath, hplain⟩ := handle_willing hadmit
  obtain ⟨own, parts, -, hown, -, heq, -, hcase⟩ :=
    (hin willing op hop object source hadmit).below
  have hfront : own <+: parts := by
    rcases hcase with ⟨hfront, -⟩ | ⟨⟨p, rfl⟩, -⟩
    · exact hfront
    · exact absurd rfl (hplain p)
  obtain ⟨back, rfl⟩ := hfront
  -- the whole directory is in a C string
  rw [joined_append, ← List.append_assoc, ← hown] at heq
  intro hmem
  refine not_mem_chars (ingestTarget (trim source.path) object.rel) ?_
  rw [← hpath, heq]
  exact List.mem_append_left _ hmem

/-- Uploads and deletions stay below their source's directory exactly when the directory of
every admitted source is text: the components are checked over the configured length, the
operating system reads up to the first NUL. -/
theorem contained_iff (r : Request) : Contained r ↔ TextDirectories r := by
  constructor
  · exact text_of_contained
  · intro htext env op hop object source hadmit
    unfold handle at hop
    split at hop
    · exact ingestDelete_confined hadmit (htext object source hadmit) env hop
    · exact ingestReady_confined hadmit (htext object source hadmit) env hop

/-- A directory `a` and `b` with a NUL between them, below the root `/srv/in`. -/
def nulSource : Source := ⟨true, ascii "/srv/in/a" ++ 0 :: ascii "b"⟩

def nulUpload : Request where
  delete := false
  uri := ascii "/ingest/live/x.ts"
  location := ascii "/ingest/"
  root := ascii "/srv/in"
  lookup key := if key = ascii "live" then some nulSource else none

theorem nul_upload_escapes : ¬ Contained nulUpload := by
  intro hin
  have hadmit : admitted nulUpload =
      .ok (⟨ascii "live", ascii "x.ts", ascii "x.ts"⟩, nulSource) := by
    decide +kernel
  have htext := text_of_contained hin _ _ hadmit
  exact absurd htext (by decide +kernel)

end HlsUploadPaths

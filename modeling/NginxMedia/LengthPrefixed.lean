import Mathlib.Data.List.Induction
import NginxMedia.ByteString

/-! Records that carry their length in front of them, in a fixed number of bytes. A list of records
is put together and taken apart again; what is taken apart was put together so. -/
namespace LengthPrefixed

open ByteString

variable {w n : ℕ} {bytes : List UInt8} {records : List (List UInt8)}

def bigEndian : ℕ → ℕ → List UInt8
  | 0, _ => []
  | w + 1, n => bigEndian w (n / 256) ++ [low n]

def number (bytes : List UInt8) : ℕ := bytes.foldl (fun n x => n * 256 + x.toNat) 0

@[simp] theorem number_nil : number [] = 0 := rfl

@[simp] theorem number_concat (bytes : List UInt8) (x : UInt8) :
    number (bytes ++ [x]) = number bytes * 256 + x.toNat := by
  rw [number, List.foldl_append, List.foldl_cons, List.foldl_nil, number]

@[simp] theorem length_bigEndian (w n : ℕ) : (bigEndian w n).length = w := by
  induction w generalizing n with
  | zero => rfl
  | succ w ih => rw [bigEndian, List.length_append, ih, List.length_singleton]

theorem number_bigEndian (h : n < 256 ^ w) : number (bigEndian w n) = n := by
  induction w generalizing n with
  | zero =>
    rw [Nat.pow_zero] at h
    rw [bigEndian, number_nil]
    omega
  | succ w ih =>
    rw [Nat.pow_succ] at h
    have hhigh : n / 256 < 256 ^ w := by omega
    rw [bigEndian, number_concat, ih hhigh, low_toNat]
    omega

theorem number_lt (bytes : List UInt8) : number bytes < 256 ^ bytes.length := by
  induction bytes using List.reverseRecOn with
  | nil => decide
  | append_singleton bytes x ih =>
    have hx := x.toNat_lt
    rw [number_concat, List.length_append, List.length_singleton, Nat.pow_succ]
    omega

theorem bigEndian_number (bytes : List UInt8) : bigEndian bytes.length (number bytes) = bytes := by
  induction bytes using List.reverseRecOn with
  | nil => rfl
  | append_singleton bytes x ih =>
    have hx := x.toNat_lt
    have hhigh : (number bytes * 256 + x.toNat) / 256 = number bytes := by omega
    have hlow : low (number bytes * 256 + x.toNat) = x := by
      apply UInt8.toNat_inj.mp
      rw [low_toNat]
      omega
    rw [List.length_append, List.length_singleton, bigEndian, number_concat, hhigh, ih, hlow]

def join (w : ℕ) (records : List (List UInt8)) : List UInt8 :=
  records.flatMap fun record => bigEndian w record.length ++ record

@[simp] theorem join_nil : join w [] = [] := rfl

@[simp] theorem join_cons (record : List UInt8) (records : List (List UInt8)) :
    join w (record :: records) = bigEndian w record.length ++ (record ++ join w records) := by
  rw [join, List.flatMap_cons, List.append_assoc, join]

/-- The records of a text that ends where one of them does. -/
def split (w : ℕ) (bytes : List UInt8) : Option (List (List UInt8)) :=
  if bytes = [] then some []
  else if _h : w = 0 ∨ bytes.length < w then none
  else
    let size := number (bytes.take w)
    let behind := bytes.drop w
    if behind.length < size then none
    else (split w (behind.drop size)).map (behind.take size :: ·)
termination_by bytes.length
decreasing_by
  rw [List.length_drop, List.length_drop]
  omega

theorem split_nil : split w [] = some [] := by
  rw [split, if_pos rfl]

theorem split_cons (hw : 0 < w) {record : List UInt8} (hrecord : record.length < 256 ^ w)
    (behind : List UInt8) : split w (bigEndian w record.length ++ (record ++ behind)) =
      (split w behind).map (record :: ·) := by
  have hlong : w ≤ (bigEndian w record.length ++ (record ++ behind)).length := by
    rw [List.length_append, length_bigEndian]
    omega
  have hne : bigEndian w record.length ++ (record ++ behind) ≠ [] :=
    List.ne_nil_of_length_pos (by omega)
  have htake : (bigEndian w record.length ++ (record ++ behind)).take w =
      bigEndian w record.length := List.take_left' (length_bigEndian _ _)
  have hdrop : (bigEndian w record.length ++ (record ++ behind)).drop w = record ++ behind :=
    List.drop_left' (length_bigEndian _ _)
  rw [split, if_neg hne, dif_neg (by omega)]
  dsimp only
  rw [htake, hdrop, number_bigEndian hrecord, if_neg (by rw [List.length_append]; omega),
    List.take_left, List.drop_left]

theorem split_join (hw : 0 < w) (h : ∀ record ∈ records, record.length < 256 ^ w) :
    split w (join w records) = some records := by
  induction records with
  | nil => exact split_nil
  | cons record records ih =>
    rw [join_cons, split_cons hw (h record List.mem_cons_self),
      ih fun other hother => h other (List.mem_cons_of_mem _ hother)]
    rfl

theorem split_sound (h : split w bytes = some records) :
    bytes = join w records ∧ ∀ record ∈ records, record.length < 256 ^ w := by
  induction bytes using split.induct (w := w) generalizing records with
  | case1 =>
    obtain rfl := Option.some.inj (split_nil.symm.trans h)
    exact ⟨rfl, nofun⟩
  | case2 bytes hne hshort =>
    rw [split, if_neg hne, dif_pos hshort] at h
    cases h
  | case3 bytes hne hshort size behind =>
    rename_i hover
    have hover' : (bytes.drop w).length < number (bytes.take w) := hover
    rw [split, if_neg hne, dif_neg hshort, if_pos hover'] at h
    cases h
  | case4 bytes hne hshort size behind hfits =>
    rename_i ih
    have hfits' : ¬(bytes.drop w).length < number (bytes.take w) := hfits
    rw [split, if_neg hne, dif_neg hshort, if_neg hfits', Option.map_eq_some_iff] at h
    obtain ⟨rest, hrest, rfl⟩ := h
    obtain ⟨hbytes, hall⟩ := ih hrest
    have hbehind : (bytes.drop w).drop (number (bytes.take w)) = join w rest := hbytes
    have hhead : (bytes.take w).length = w := List.length_take_of_le (by omega)
    have hsize : ((bytes.drop w).take (number (bytes.take w))).length = number (bytes.take w) :=
      List.length_take_of_le (by omega)
    have hnumber := bigEndian_number (bytes.take w)
    have hlt := number_lt (bytes.take w)
    rw [hhead] at hnumber hlt
    constructor
    · calc bytes = bytes.take w ++ bytes.drop w := (List.take_append_drop w bytes).symm
        _ = bytes.take w ++ ((bytes.drop w).take (number (bytes.take w)) ++ join w rest) := by
          rw [← hbehind, List.take_append_drop (number (bytes.take w))]
        _ = join w ((bytes.drop w).take (number (bytes.take w)) :: rest) := by
          rw [join_cons, hsize, hnumber]
    · intro record hmem
      rcases List.mem_cons.mp hmem with rfl | hmem
      · rwa [hsize]
      · exact hall record hmem

end LengthPrefixed

import NginxMedia.Sha2
import NginxMedia.Sha256

/-! The hash of `ngx_media_rtmp_wire.c` is the standard's, however a message is cut into updates. -/
namespace Sha256Standard

open ByteString BlockStream BlockHash Sha256

def standard (s : Words) : Sha2.Words := ⟨s.a, s.b, s.c, s.d, s.e, s.f, s.g, s.h⟩

theorem k_standard : k = Sha2.constants := by decide +kernel

theorem words_standard : standard words = Sha2.initial := by decide +kernel

theorem sum_reverse (a b c d : UInt32) : a + b + c + d = d + c + b + a := by
  rw [UInt32.add_comm (a + b + c) d, UInt32.add_comm (a + b) c, UInt32.add_comm a b,
    ← UInt32.add_assoc, ← UInt32.add_assoc]

theorem schedule_standard (m : ℕ → UInt32) (n : ℕ) {l : ℕ} (h : 16 ≤ l) :
    schedule n ((List.range l).map (Sha2.schedule m)) =
      (List.range (l + n)).map (Sha2.schedule m) := by
  induction n generalizing l with
  | zero => rfl
  | succ n ih =>
    have hnext := ih (show 16 ≤ l + 1 by omega)
    rw [Sha2.range_schedule m h] at hnext
    have hlength : ((List.range l).map (Sha2.schedule m)).length = l := by simp
    rw [schedule, hlength, sum_reverse]
    exact hnext.trans (by rw [Nat.add_assoc, Nat.add_comm 1 n])

theorem first_words (p : Str) : (List.range 16).map (wordAt p) =
    (List.range 16).map (Sha2.schedule (Sha2.wordAt p)) := by
  refine List.map_congr_left fun t ht => ?_
  rw [Sha2.schedule, if_pos (List.mem_range.mp ht), wordAt, Sha2.wordAt, Nat.mul_comm]

theorem zip_constants (f : ℕ → UInt32) : k.zip ((List.range 64).map f) =
    (List.range 64).map fun t => (Sha2.constants.getD t 0, f t) := by
  have hk : k = (List.range 64).map fun t => k.getD t 0 := rfl
  rw [← k_standard, hk, List.zip_map']
  rfl

theorem block_standard (s : Words) (p : Str) :
    standard (block s p) = Sha2.compress (standard s) (Sha2.wordAt p) := by
  have hrounds : standard (((List.range 64).map fun t =>
      (Sha2.constants.getD t 0, Sha2.schedule (Sha2.wordAt p) t)).foldl round s) =
        (List.range 64).foldl (Sha2.round (Sha2.wordAt p)) (standard s) := by
    rw [List.foldl_map]
    exact (List.foldl_hom standard fun _ _ => rfl).symm
  unfold block Sha2.compress
  dsimp only
  rw [first_words, schedule_standard _ 48 (Nat.le_refl 16), zip_constants, ← hrounds]
  unfold standard
  congr 1 <;> exact UInt32.add_comm _ _

theorem padding_standard (m : Str) :
    m ++ padding (m.length % 64) (m.length * 8) = Sha2.pad m := by
  rw [padding, Sha2.pad, Sha2.zeroBits_bytes, List.append_assoc]

theorem hash_standard (m : Str) : Sha256.hash m = Sha2.sha256 m := by
  have hblocks : ∀ (bs : List Str) (s : Words), standard (bs.foldl block s) =
      bs.foldl (fun s b => Sha2.compress s (Sha2.wordAt b)) (standard s) := fun bs s =>
    (List.foldl_hom standard fun s b => (block_standard s b).symm).symm
  rw [Sha256.hash, Sha2.sha256, padding_standard, ← words_standard, ← hblocks]
  rfl

theorem updates_read {ctx : Ctx} {m : Str} (h : Reads ctx m) (pieces : List Str) :
    Reads (pieces.foldl update ctx) (m ++ pieces.flatten) := by
  induction pieces generalizing ctx m with
  | nil => simpa using h
  | cons piece pieces ih =>
    have hall := ih (h.update piece)
    rwa [List.append_assoc, ← List.flatten_cons] at hall

/-- Whatever the message and wherever it is cut. -/
theorem digest_standard (pieces : List Str) :
    final (pieces.foldl update init) = Sha2.sha256 pieces.flatten := by
  rw [(updates_read init_reads pieces).final, List.nil_append, hash_standard]

end Sha256Standard

import NginxMedia.BlockStream

/-! Hashes that are computed block by block over a stream: what is fed in pieces is hashed like
the whole, and keyed hashing over such a hash. Nothing here names a particular compression. -/
namespace BlockHash

open BlockStream

variable {σ : Type} (compress : σ → List UInt8 → σ) (n : ℕ)

def absorb (s : σ × List UInt8) (data : List UInt8) : σ × List UInt8 :=
  ((blocks n (s.2 ++ data)).foldl compress s.1, rest n (s.2 ++ data))

variable {compress n}

theorem absorb_append (h0 : 0 < n) (s : σ × List UInt8) (a b : List UInt8) :
    absorb compress n (absorb compress n s a) b = absorb compress n s (a ++ b) := by
  obtain ⟨hblocks, hrest⟩ := blocks_append h0 (s.2 ++ a) b
  unfold absorb
  rw [← List.append_assoc, hblocks, hrest, List.foldl_append]

theorem absorb_fill {s : σ} {block data : List UInt8} (h0 : 0 < n)
    (h : block.length + data.length ≤ n) : absorb compress n (s, block) data =
      if block.length + data.length = n then (compress s (block ++ data), [])
      else (s, block ++ data) := by
  have hlength : (block ++ data).length = block.length + data.length := List.length_append
  unfold absorb
  dsimp only
  split_ifs with hfull
  · have htake : (block ++ data).take n = block ++ data := List.take_of_length_le (by omega)
    have hdrop : (block ++ data).drop n = [] := List.drop_of_length_le (by omega)
    rw [blocks_step h0 (by omega), rest_step h0 (by omega), htake, hdrop, blocks_short h0,
      rest_short h0]
    rfl
  · rw [blocks_short (by omega), rest_short (by omega)]
    rfl

theorem absorb_nil {s : σ} {block : List UInt8} (h : block.length < n) :
    absorb compress n (s, block) [] = (s, block) := by
  rw [absorb_fill (by omega) (by rw [List.length_nil]; omega),
    if_neg (by rw [List.length_nil]; omega), List.append_nil]

theorem absorb_block {s : σ} {data : List UInt8} (h0 : 0 < n) (h : n ≤ data.length) :
    absorb compress n (s, []) data =
      absorb compress n (compress s (data.take n), []) (data.drop n) := by
  unfold absorb
  rw [List.nil_append, List.nil_append, blocks_step h0 h, rest_step h0 h]
  rfl

def blockKey (hash : List UInt8 → List UInt8) (n : ℕ) (key : List UInt8) : List UInt8 :=
  let short := if key.length > n then hash key else key
  short ++ List.replicate (n - short.length) 0

def hmac (hash : List UInt8 → List UInt8) (n : ℕ) (key message : List UInt8) : List UInt8 :=
  let block := blockKey hash n key
  hash (block.map (· ^^^ 0x5C) ++ hash (block.map (· ^^^ 0x36) ++ message))

end BlockHash

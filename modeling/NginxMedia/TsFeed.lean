import NginxMedia.BlockStream
import NginxMedia.TsDemux

/-! The framer in front of the demultiplexer: a stream of whole packets gives one result,
however it is cut into calls. -/
namespace TsFeed

open BlockStream TsDemux

variable {mem : Memory}

abbrev InSync (data : List UInt8) : Prop := Starts packetSize syncByte data

def absorb (mem : Memory) (d : Demux) (stream : List UInt8) : Demux :=
  { d with
    core := (blocks packetSize stream).foldl (processPacket mem) d.core
    tail := rest packetSize stream }

def counted (d : Demux) (n : ℕ) : Demux := { d with bytes := d.bytes + n }

theorem packetSize_pos : 0 < packetSize := by decide

theorem feedLoop_inSync {d : Demux} {data : List UInt8} (h : InSync data) :
    feedLoop mem d data = absorb mem d data := by
  induction d, data using feedLoop.induct mem with
  | case1 d data hlen =>
    rw [feedLoop, dif_pos hlen, absorb, blocks_short hlen, rest_short hlen]
    rfl
  | case2 d data hlen hsync ih =>
    have hlong : packetSize ≤ data.length := by omega
    rw [feedLoop, dif_neg hlen, if_pos hsync, ih h.drop, absorb, absorb,
      blocks_step packetSize_pos hlong, rest_step packetSize_pos hlong, List.foldl_cons]
  | case3 d data hlen hsync skip ih =>
    refine absurd (h.head ?_) hsync
    rintro rfl
    exact hlen packetSize_pos

theorem feedLoop_tail (d : Demux) (data : List UInt8) :
    (feedLoop mem d data).tail.length < packetSize := by
  induction d, data using feedLoop.induct mem with
  | case1 d data hlen => rwa [feedLoop, dif_pos hlen]
  | case2 d data hlen hsync ih => rwa [feedLoop, dif_neg hlen, if_pos hsync]
  | case3 d data hlen hsync skip ih => rwa [feedLoop, dif_neg hlen, if_neg hsync]

theorem feed_tail (d : Demux) (data : List UInt8) :
    (feed mem d data).tail.length < packetSize := by
  unfold feed
  dsimp only
  split_ifs with htail hshort
  · exact feedLoop_tail _ _
  · exact hshort
  · exact feedLoop_tail _ _

theorem feed_inSync {d : Demux} {data : List UInt8} (htail : d.tail.length < packetSize)
    (h : InSync (d.tail ++ data)) :
    feed mem d data = absorb mem (counted d data.length) (d.tail ++ data) := by
  unfold feed
  dsimp only
  split_ifs with hnil hshort
  · rw [hnil, List.nil_append] at h ⊢
    exact feedLoop_inSync h
  · -- the packet stays unfinished
    rw [List.length_append, List.length_take] at hshort
    have hall : data.take (min data.length (packetSize - d.tail.length)) = data :=
      List.take_of_length_le (by omega)
    have hlen : (d.tail ++ data).length < packetSize := by
      rw [List.length_append]
      omega
    rw [hall, absorb, blocks_short hlen, rest_short hlen]
    rfl
  · -- the carried packet is finished and the loop goes on behind it
    rw [List.length_append, List.length_take] at hshort
    have hneed : min data.length (packetSize - d.tail.length) =
        packetSize - d.tail.length := by omega
    have hlong : packetSize ≤ (d.tail ++ data).length := by
      rw [List.length_append]
      omega
    have htake : (d.tail ++ data).take packetSize =
        d.tail ++ data.take (packetSize - d.tail.length) := by
      rw [List.take_append, List.take_of_length_le (by omega)]
    have hdrop : (d.tail ++ data).drop packetSize = data.drop (packetSize - d.tail.length) := by
      rw [List.drop_append, List.drop_of_length_le (by omega), List.nil_append]
    have hhead : (d.tail ++ data.take (packetSize - d.tail.length)).head? = some syncByte := by
      have hfull : (d.tail ++ data).head? = some syncByte := h.head (by simp [hnil])
      rwa [List.head?_append_of_ne_nil _ hnil] at hfull ⊢
    have hrest := h.drop
    rw [hdrop] at hrest
    rw [hneed, finishTail, if_pos hhead, feedLoop_inSync hrest, absorb, absorb,
      blocks_step packetSize_pos hlong, rest_step packetSize_pos hlong, htake, hdrop,
      List.foldl_cons]
    rfl

theorem absorb_absorb (d : Demux) (n : ℕ) (a b : List UInt8) :
    absorb mem (counted (absorb mem d a) n) ((absorb mem d a).tail ++ b) =
      absorb mem (counted d n) (a ++ b) := by
  obtain ⟨hblocks, hrest⟩ := blocks_append packetSize_pos a b
  unfold absorb counted
  dsimp only
  rw [hblocks, hrest, List.foldl_append]

theorem feed_chunks {d : Demux} {chunks : List (List UInt8)}
    (htail : d.tail.length < packetSize) (h : InSync (d.tail ++ chunks.flatten)) :
    chunks.foldl (feed mem) d =
      absorb mem (counted d chunks.flatten.length) (d.tail ++ chunks.flatten) := by
  induction chunks generalizing d with
  | nil =>
    rw [List.foldl_nil, List.flatten_nil, List.append_nil, absorb, blocks_short htail,
      rest_short htail]
    rfl
  | cons chunk more ih =>
    rw [List.flatten_cons, ← List.append_assoc] at h
    have hone : feed mem d chunk = absorb mem (counted d chunk.length) (d.tail ++ chunk) :=
      feed_inSync htail h.append_left
    have hnext : InSync ((feed mem d chunk).tail ++ more.flatten) := by
      rw [hone]
      exact h.rest_append packetSize_pos
    rw [List.foldl_cons, ih (feed_tail d chunk) hnext, hone, List.flatten_cons,
      ← List.append_assoc, absorb_absorb, List.length_append]
    unfold absorb counted
    dsimp only
    rw [Nat.add_assoc]

theorem feed_packets {d : Demux} (hd : d.tail = []) {packets chunks : List (List UInt8)}
    (hpackets : ∀ p ∈ packets, p.length = packetSize ∧ p.head? = some syncByte)
    (hcut : chunks.flatten = packets.flatten) :
    chunks.foldl (feed mem) d = { d with
      core := packets.foldl (processPacket mem) d.core
      bytes := d.bytes + packets.flatten.length } := by
  have hshort : d.tail.length < packetSize := by
    rw [hd]
    exact packetSize_pos
  have hsync : InSync (d.tail ++ chunks.flatten) := by
    rw [hd, hcut]
    exact starts_flatten packetSize_pos hpackets
  obtain ⟨hblocks, hrest⟩ := blocks_flatten packetSize_pos fun p hp => (hpackets p hp).1
  rw [feed_chunks hshort hsync, hcut, hd, List.nil_append, absorb, hblocks, hrest, counted, ← hd]

/-- A stream of packets that start with the sync byte gives one demultiplexer, whatever calls
it comes in, and no call carries a whole packet over. -/
theorem chunking_invariance {d : Demux} (hd : d.tail = []) {packets chunks : List (List UInt8)}
    (hpackets : ∀ p ∈ packets, p.length = packetSize ∧ p.head? = some syncByte)
    (hcut : chunks.flatten = packets.flatten) :
    chunks.foldl (feed mem) d = feed mem d packets.flatten ∧
      (chunks.foldl (feed mem) d).core = packets.foldl (processPacket mem) d.core ∧
      ∀ k, ((chunks.take k).foldl (feed mem) d).tail.length < packetSize := by
  have hshort : d.tail.length < packetSize := by
    rw [hd]
    exact packetSize_pos
  have hsync : InSync (d.tail ++ packets.flatten) := by
    rw [hd]
    exact starts_flatten packetSize_pos hpackets
  have hchunks : chunks.foldl (feed mem) d =
      absorb mem (counted d chunks.flatten.length) (d.tail ++ chunks.flatten) :=
    feed_chunks hshort (by rwa [hcut])
  have hblocks := (blocks_flatten packetSize_pos fun p hp => (hpackets p hp).1).1
  refine ⟨?_, ?_, fun k => ?_⟩
  · rw [hchunks, feed_inSync hshort hsync, hcut]
  · rw [hchunks, hcut, hd, absorb]
    change (blocks packetSize packets.flatten).foldl (processPacket mem) d.core = _
    rw [hblocks]
  · rcases List.eq_nil_or_concat (chunks.take k) with hnil | ⟨init, last, hlast⟩
    · rw [hnil]
      exact hshort
    · rw [hlast, List.concat_eq_append, List.foldl_append]
      exact feed_tail _ last

def nullPacket : List UInt8 := [0x47, 0x1F, 0xFF] ++ List.replicate 185 0x10

/-- A cut inside the header, an empty call and the rest. -/
theorem chunking_invariance_cut :
    [nullPacket.take 2, [], nullPacket.drop 2].foldl (feed ⟨true, fun _ => true⟩)
        (Demux.init 0 0) =
      feed ⟨true, fun _ => true⟩ (Demux.init 0 0) [nullPacket].flatten :=
  (chunking_invariance rfl
    (by
      intro p hp
      obtain rfl := List.mem_singleton.mp hp
      refine ⟨?_, rfl⟩
      rw [nullPacket, List.length_append, List.length_replicate]
      rfl)
    (by simp)).1

end TsFeed

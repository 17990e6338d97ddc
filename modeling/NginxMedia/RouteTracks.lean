import NginxMedia.GraphWire
import NginxMedia.MediaCompat
import Mathlib.Algebra.Order.BigOperators.Group.List
import Mathlib.Data.List.Forall2

/-! The track contract on its way to the owner of a program: `ngx_media_route_tracks()` writes it
and the route sink of `ngx_media_runtime.c` reads it back. A track holds the numbers of its
fields here, so that a value without a name is carried too. -/
namespace RouteTracks

open ByteString GraphWire
open MediaTypes (Payload bufSize)
open MediaCompat (Compat worst differs)

structure Track where
  mediaType : ℕ
  codec : ℕ
  payloadFormat : ℕ
  profile : ℕ
  level : ℕ
  width : ℕ
  height : ℕ
  frameRateNum : ℕ
  frameRateDen : ℕ
  sampleRate : ℕ
  channels : ℕ
  config : Option Payload
  deriving DecidableEq, Repr

abbrev TrackSet := List Track

def typeVideo : ℕ := 1
def typeAudio : ℕ := 2

def maxTrackConfig : ℕ := 64 * 1024

def maxTracks : ℕ := 8

def fieldsSize : ℕ := 10 * 4

def Track.fields (t : Track) : List UInt8 :=
  putWord 4 t.mediaType ++ (putWord 4 t.codec ++ (putWord 4 t.payloadFormat ++
    (putWord 4 t.sampleRate ++ (putWord 4 t.channels ++ (putWord 4 t.profile ++
    (putWord 4 t.level ++ (putWord 4 t.width ++ (putWord 4 t.height ++
    putWord 4 (bufSize t.config)))))))))

def Track.bytes (t : Track) : List UInt8 := t.fields ++ t.config.getD []

/-- The length that `ngx_media_route_tracks()` reckons before it writes. -/
def encodedSize (tracks : TrackSet) : ℕ :=
  4 + (tracks.map fun t => fieldsSize + bufSize t.config).sum

def routeTracks (tracks : TrackSet) (connected allocs : Bool) : Option (List UInt8) :=
  if tracks.length = 0 then none
  else if connected = false then none
  else if encodedSize tracks > maxPayload then none
  else if allocs = false then none
  else some (putWord 4 tracks.length ++ tracks.flatMap Track.bytes)

/-- What the sink makes of a payload; `overread` is an access past its end. -/
inductive Decoding where
  | accepted (set : TrackSet)
  | refused
  | overread
  deriving DecidableEq, Repr

def Track.read (fields : List UInt8) : Track :=
  let field := fun i => word ((fields.drop (4 * i)).take 4)
  { mediaType := field 0
    codec := field 1
    payloadFormat := field 2
    profile := field 5
    level := field 6
    width := field 7
    height := field 8
    frameRateNum := 0
    frameRateDen := 0
    sampleRate := field 3
    channels := field 4
    config := none }

def sinkLoop (p : List UInt8) (allocs : ℕ → Bool) : ℕ → ℕ → ℕ → TrackSet → Decoding
  | 0, _, _, set => .accepted set
  | n + 1, q, left, set =>
    if left < fieldsSize then .refused
    else
      match access p q fieldsSize with
      | none => .overread
      | some fields =>
        let configLen := word ((fields.drop 36).take 4)
        if configLen > left - fieldsSize ∨ configLen > maxTrackConfig then .refused
        else if configLen > 0 then
          if allocs configLen = false then .refused
          else
            match access p (q + fieldsSize) configLen with
            | none => .overread
            | some config =>
              sinkLoop p allocs n (q + fieldsSize + configLen) (left - fieldsSize - configLen)
                (set ++ [{ Track.read fields with config := some config }])
        else
          sinkLoop p allocs n (q + fieldsSize) (left - fieldsSize) (set ++ [Track.read fields])

/-- The `TRACKS` message of `ngx_media_runtime_route_sink()`, up to the set that it gives to the
source. `allocs` says which buffers it gets, and `room` whether the set itself is allocated. -/
def sinkTracks (p : List UInt8) (room : Bool) (allocs : ℕ → Bool) : Decoding :=
  if p.length < 4 then .refused
  else
    match access p 0 4 with
    | none => .overread
    | some head =>
      if word head = 0 ∨ word head > maxTracks ∨ room = false then .refused
      else sinkLoop p allocs (word head) 4 (p.length - 4) []

def compatTrack (program candidate : Track) : Compat :=
  if program.codec ≠ candidate.codec then .incompatible
  else if program.mediaType ≠ candidate.mediaType then .incompatible
  else if program.mediaType = typeAudio ∧
      (differs program.sampleRate candidate.sampleRate ||
        differs program.channels candidate.channels ||
        differs program.profile candidate.profile) then .degraded
  else if program.mediaType = typeVideo ∧
      (differs program.profile candidate.profile || differs program.level candidate.level ||
        differs program.width candidate.width ||
        differs program.height candidate.height) then .degraded
  else if program.payloadFormat ≠ candidate.payloadFormat then .degraded
  else .ready

def against (program : Track) (candidate : TrackSet) (result : Compat) : Bool × Compat :=
  candidate.foldl (fun acc c =>
    if c.mediaType ≠ program.mediaType then acc
    else (true, worst acc.2 (compatTrack program c))) (false, result)

def classifyLoop (candidate : TrackSet) : List Track → Compat → Option Compat
  | [], result => some result
  | p :: rest, result =>
    if (against p candidate result).1 then
      classifyLoop candidate rest (against p candidate result).2
    else none

def classify (program candidate : Option TrackSet) : Compat :=
  match program, candidate with
  | some program, some candidate =>
    if program.length = 0 then .ready
    else match classifyLoop candidate program .ready with
      | none => .incompatible
      | some result =>
        if candidate.length > program.length then worst result .degraded else result
  | _, _ => .ready

def Track.contract (t : Track) : Track :=
  { t with frameRateNum := 0, frameRateDen := 0, config := none }

def Track.Same (a b : Track) : Prop :=
  a.contract = b.contract ∧ a.config.getD [] = b.config.getD []

/-- Every number is one of 32 bits. -/
structure Track.Fits (t : Track) : Prop where
  mediaType : t.mediaType < 256 ^ 4
  codec : t.codec < 256 ^ 4
  payloadFormat : t.payloadFormat < 256 ^ 4
  profile : t.profile < 256 ^ 4
  level : t.level < 256 ^ 4
  width : t.width < 256 ^ 4
  height : t.height < 256 ^ 4
  sampleRate : t.sampleRate < 256 ^ 4
  channels : t.channels < 256 ^ 4

variable {t : Track} {tracks set : TrackSet} {p : List UInt8}

theorem against_contract (a : Track) (candidate : TrackSet) (result : Compat) :
    against a.contract (candidate.map Track.contract) result = against a candidate result := by
  unfold against
  rw [List.foldl_map]
  rfl

theorem classifyLoop_contract (candidate program : TrackSet) (result : Compat) :
    classifyLoop (candidate.map Track.contract) (program.map Track.contract) result =
      classifyLoop candidate program result := by
  induction program generalizing result with
  | nil => rfl
  | cons a rest ih =>
    rw [List.map_cons, classifyLoop, classifyLoop, against_contract, ih]

theorem classify_contract (program candidate : Option TrackSet) :
    classify (program.map (·.map Track.contract)) (candidate.map (·.map Track.contract)) =
      classify program candidate := by
  cases program with
  | none => rfl
  | some a =>
    cases candidate with
    | none => rfl
    | some b =>
      simp only [Option.map_some, classify, classifyLoop_contract, List.length_map]

theorem Same.verdicts (h : List.Forall₂ Track.Same tracks set) (third : Option TrackSet) :
    classify (some tracks) third = classify (some set) third ∧
      classify third (some tracks) = classify third (some set) := by
  have hsame : tracks.map Track.contract = set.map Track.contract := by
    induction h with
    | nil => rfl
    | cons hab _ ih => rw [List.map_cons, List.map_cons, hab.1, ih]
  constructor
  · rw [← classify_contract (some tracks), ← classify_contract (some set), Option.map_some,
      Option.map_some, hsame]
  · rw [← classify_contract third (some tracks), ← classify_contract third (some set),
      Option.map_some, Option.map_some, hsame]

theorem Track.fields_length (t : Track) : t.fields.length = fieldsSize := by
  simp [Track.fields, fieldsSize]

theorem Track.bytes_length (t : Track) : t.bytes.length = fieldsSize + bufSize t.config := by
  rw [Track.bytes, List.length_append, Track.fields_length]
  cases t.config <;> rfl

theorem bufSize_getD (config : Option Payload) : bufSize config = (config.getD []).length := by
  cases config <;> rfl

theorem Track.configLen (h : bufSize t.config < 256 ^ 4) :
    word ((t.fields.drop 36).take 4) = bufSize t.config := by
  unfold Track.fields
  simp only [drop_behind, putWord_length, word_putWord, h, Nat.reduceSub,
    Nat.reduceLeDiff, Nat.le_refl, Nat.sub_self, List.drop_zero, List.take_of_length_le]

theorem Track.read_fields (h : t.Fits) : Track.read t.fields = t.contract := by
  obtain ⟨h1, h2, h3, h4, h5, h6, h7, h8, h9⟩ := h
  unfold Track.read Track.fields Track.contract
  simp only [drop_behind, putWord_length, List.drop_zero, take_front, word_putWord, *,
    Nat.reduceMul, Nat.reduceSub, Nat.reduceLeDiff, Nat.le_refl, Nat.mul_zero, Nat.mul_one,
    Nat.sub_self]

def Track.received (t : Track) : Track :=
  if bufSize t.config > 0 then { t.contract with config := t.config } else t.contract

theorem Track.received_same (t : Track) : t.Same t.received := by
  unfold Track.received
  by_cases hconfig : bufSize t.config > 0
  · rw [if_pos hconfig]
    exact ⟨rfl, rfl⟩
  · rw [if_neg hconfig]
    refine ⟨rfl, ?_⟩
    have hempty : (t.config.getD []).length = 0 := by
      rw [← bufSize_getD]
      omega
    exact List.length_eq_zero_iff.mp hempty

theorem sinkLoop_track {allocs : ℕ → Bool} (hfits : t.Fits) (hconfig : bufSize t.config ≤ maxTrackConfig)
    (hallocs : ∀ n, allocs n = true) {before after : List UInt8} (n : ℕ) (set : TrackSet)
    (hp : p = before ++ (t.bytes ++ after)) :
    sinkLoop p allocs (n + 1) before.length (t.bytes ++ after).length set =
      sinkLoop p allocs n (before ++ t.bytes).length after.length (set ++ [t.received]) := by
  have hlen := Track.bytes_length t
  have hsize : ¬(t.bytes ++ after).length < fieldsSize := by
    rw [List.length_append, hlen]
    omega
  have hfields : access p before.length fieldsSize = some t.fields := by
    rw [hp, Track.bytes, List.append_assoc]
    exact access_middle rfl (Track.fields_length t)
  have hword := Track.configLen (t := t) (Nat.lt_of_le_of_lt hconfig (by decide))
  have hleft : (t.bytes ++ after).length - fieldsSize = bufSize t.config + after.length := by
    rw [List.length_append, hlen]
    omega
  rw [sinkLoop, if_neg hsize, hfields]
  dsimp only
  rw [hword, hleft, if_neg (by omega), Track.read_fields hfits, List.length_append, hlen]
  unfold Track.received
  by_cases hpos : bufSize t.config > 0
  · have hbytes : access p (before.length + fieldsSize) (bufSize t.config) =
        some (t.config.getD []) := by
      rw [hp, Track.bytes, List.append_assoc, ← List.append_assoc before]
      exact access_middle (by rw [List.length_append, Track.fields_length])
        (bufSize_getD t.config).symm
    have hsome : some (t.config.getD []) = t.config := by
      cases hc : t.config with
      | none =>
        rw [hc] at hpos
        exact absurd hpos (Nat.lt_irrefl 0)
      | some config => rfl
    rw [if_pos hpos, if_pos hpos, if_neg (by simp [hallocs]), hbytes]
    dsimp only
    rw [hsome, Nat.add_sub_cancel_left, Nat.add_assoc]
  · have hzero : bufSize t.config = 0 := by omega
    rw [if_neg hpos, if_neg hpos, hzero, Nat.zero_add, Nat.add_zero]

theorem sinkLoop_tracks {allocs : ℕ → Bool} (hfits : ∀ t ∈ tracks, t.Fits)
    (hconfig : ∀ t ∈ tracks, bufSize t.config ≤ maxTrackConfig) (hallocs : ∀ n, allocs n = true)
    {before : List UInt8} (set : TrackSet) (hp : p = before ++ tracks.flatMap Track.bytes) :
    sinkLoop p allocs tracks.length before.length (tracks.flatMap Track.bytes).length set =
      .accepted (set ++ tracks.map Track.received) := by
  induction tracks generalizing before set with
  | nil =>
    rw [List.length_nil, sinkLoop, List.map_nil, List.append_nil]
  | cons t rest ih =>
    rw [List.flatMap_cons] at hp
    rw [List.length_cons, List.flatMap_cons,
      sinkLoop_track (hfits t List.mem_cons_self) (hconfig t List.mem_cons_self) hallocs
        rest.length set hp,
      ih (fun t ht => hfits t (List.mem_cons_of_mem _ ht))
        (fun t ht => hconfig t (List.mem_cons_of_mem _ ht)) (set ++ [t.received])
        (by rw [hp, List.append_assoc]), List.map_cons, List.append_assoc, List.singleton_append]

theorem config_le (hsize : encodedSize tracks ≤ maxPayload) (ht : t ∈ tracks) :
    bufSize t.config ≤ maxTrackConfig := by
  have hle : fieldsSize + bufSize t.config ≤ (tracks.map fun t => fieldsSize + bufSize t.config).sum :=
    List.le_sum_of_mem (List.mem_map.mpr ⟨t, ht, rfl⟩)
  unfold encodedSize maxPayload at hsize
  unfold maxTrackConfig
  omega

theorem sinkTracks_written (hpos : 1 ≤ tracks.length) (hmax : tracks.length ≤ maxTracks)
    (hfits : ∀ t ∈ tracks, t.Fits) (hsize : encodedSize tracks ≤ maxPayload) :
    sinkTracks (putWord 4 tracks.length ++ tracks.flatMap Track.bytes) true (fun _ => true) =
      .accepted (tracks.map Track.received) := by
  have hcount : word (putWord 4 tracks.length) = tracks.length :=
    word_putWord (Nat.lt_of_le_of_lt hmax (by decide))
  have hhead : access (putWord 4 tracks.length ++ tracks.flatMap Track.bytes) 0 4 =
      some (putWord 4 tracks.length) :=
    @access_middle [] (putWord 4 tracks.length) _ 0 4 rfl (putWord_length 4 _)
  have hlen : (putWord 4 tracks.length ++ tracks.flatMap Track.bytes).length =
      4 + (tracks.flatMap Track.bytes).length := by
    rw [List.length_append, putWord_length]
  have hloop := @sinkLoop_tracks tracks _ (fun _ => true) hfits
    (fun t ht => config_le hsize ht) (fun _ => rfl) (putWord 4 tracks.length) [] rfl
  rw [putWord_length] at hloop
  unfold sinkTracks
  rw [if_neg (by omega), hhead]
  dsimp only
  rw [hcount, if_neg (by simp only [Bool.true_eq_false, or_false]; omega), hlen, Nat.add_sub_cancel_left, hloop, List.nil_append]

theorem sinkLoop_within (allocs : ℕ → Bool) (n : ℕ) {q left : ℕ} (hq : q + left = p.length)
    (set : TrackSet) : sinkLoop p allocs n q left set ≠ .overread := by
  induction n generalizing q left set with
  | zero => simp [sinkLoop]
  | succ n ih =>
    rw [sinkLoop]
    by_cases hshort : left < fieldsSize
    · simp [hshort]
    · obtain ⟨fields, hfields, -, -⟩ := @access_piece p q fieldsSize (by omega)
      rw [if_neg hshort, hfields]
      dsimp only
      by_cases hlong : word ((fields.drop 36).take 4) > left - fieldsSize ∨
          word ((fields.drop 36).take 4) > maxTrackConfig
      · simp [hlong]
      · rw [if_neg hlong]
        by_cases hpos : word ((fields.drop 36).take 4) > 0
        · obtain ⟨config, hconfig, -, -⟩ := @access_piece p (q + fieldsSize)
            (word ((fields.drop 36).take 4)) (by omega)
          rw [if_pos hpos, hconfig]
          cases allocs (word ((fields.drop 36).take 4)) with
          | false => simp
          | true => exact ih (by omega) _
        · rw [if_neg hpos]
          exact ih (by omega) _

theorem sinkTracks_within (p : List UInt8) (room : Bool) (allocs : ℕ → Bool) :
    sinkTracks p room allocs ≠ .overread := by
  unfold sinkTracks
  by_cases hshort : p.length < 4
  · simp [hshort]
  · obtain ⟨head, hhead, -, -⟩ := @access_piece p 0 4 (by omega)
    rw [if_neg hshort, hhead]
    dsimp only
    split
    · simp
    · exact sinkLoop_within allocs _ (by omega) []

/-- The sink has the tracks that were written, which the classification cannot tell from the
original; and no payload makes it read past the end. -/
theorem tracks_round_trip :
    (∀ tracks : TrackSet, 1 ≤ tracks.length → tracks.length ≤ maxTracks →
      (∀ t ∈ tracks, t.Fits) → encodedSize tracks ≤ maxPayload →
      ∃ p set, routeTracks tracks true true = some p ∧
        sinkTracks p true (fun _ => true) = .accepted set ∧
        List.Forall₂ Track.Same tracks set ∧
        ∀ third, classify (some tracks) third = classify (some set) third ∧
          classify third (some tracks) = classify third (some set)) ∧
    ∀ p room allocs, sinkTracks p room allocs ≠ .overread := by
  refine ⟨?_, sinkTracks_within⟩
  intro tracks hpos hmax hfits hsize
  have hsame : List.Forall₂ Track.Same tracks (tracks.map Track.received) := by
    rw [List.forall₂_map_right_iff]
    exact List.forall₂_same.mpr fun t _ => t.received_same
  refine ⟨_, _, ?_, sinkTracks_written hpos hmax hfits hsize, hsame, Same.verdicts hsame⟩
  unfold routeTracks
  rw [if_neg (by omega), if_neg (by simp), if_neg (by omega), if_neg (by simp)]

def camera : TrackSet :=
  [⟨1, 1, 1, 100, 40, 1920, 1080, 25, 1, 0, 0, some [1, 100, 0, 40]⟩,
    ⟨2, 3, 3, 2, 0, 0, 0, 0, 0, 48000, 2, none⟩]

theorem tracks_round_trip_camera :
    ∃ p set, routeTracks camera true true = some p ∧
      sinkTracks p true (fun _ => true) = .accepted set ∧ List.Forall₂ Track.Same camera set := by
  obtain ⟨p, set, hp, hset, hsame, -⟩ := tracks_round_trip.1 camera (by decide) (by decide)
    (by
      intro t ht
      simp only [camera, List.mem_cons, List.not_mem_nil, or_false] at ht
      rcases ht with rfl | rfl <;> constructor <;> decide) (by decide)
  exact ⟨p, set, hp, hset, hsame⟩

end RouteTracks

import NginxMedia.RtmpDestination

/-! When a visit with an empty output queue gets past the unit at the cursor. Admission asks for
room for all buffers of a unit at once, so a unit that needs more buffers than a queue may hold is
refused however long it waits. -/
namespace RtmpProgress

open MediaTypes RtmpFanout RtmpOutput RtmpPlayer RtmpDestination
open RtmpCursor (Stamped)
open RtmpPrepare (Prepare)

variable {fan : Fanout} {ps : List Push} {unit : Media} {n : ℕ}

theorem unitMessage_whole (h : Stamped fan ps) {cursor : ℕ} (hnext : next fan cursor = some unit)
    (csid streamId : ℕ) : ∃ payload, payload.length = unit.size ∧
      unitMessage csid streamId unit = whole csid unit.type streamId unit.timestamp payload := by
  obtain ⟨-, -, p, -, hunit⟩ := h.next hnext
  refine ⟨p.payload, ?_, ?_⟩
  · rw [hunit]
    rfl
  · rw [hunit]
    rfl

theorem unit_admitted (h : Stamped fan ps) {lim : Limits} {o : Output} (ho : Sound lim o)
    (hslim : Slim o) (hmax : lim.maxQueue ≤ RtmpWriter.maxOutParts)
    (hbytes : lim.maxQueue * 2064 ≤ lim.maxBytes) {cursor csid : ℕ} (streamId : ℕ)
    (hcsid : csid < RtmpWriter.maxOutCsid) (hnext : next fan cursor = some unit)
    (maxWire : Option ℕ) (hwire : ∀ budget ∈ maxWire, lim.maxBytes ≤ budget) :
    if o.outQueue + partsOf unit.size ≤ lim.maxQueue then
      ∃ o' wire, queueMessage lim .ample o (unitMessage csid streamId unit) maxWire =
        (o', .ok, wire)
    else queueMessage lim .ample o (unitMessage csid streamId unit) maxWire = (o, .again, 0) := by
  obtain ⟨payload, hsize, hmessage⟩ := unitMessage_whole h hnext csid streamId
  have hadmits := ho.admits hmax unit.type streamId unit.timestamp payload hcsid
    (hslim.bytesRoom hbytes) hwire
  rw [hmessage, ← hsize]
  split_ifs with hfit
  · rw [if_pos hfit] at hadmits
    obtain ⟨o', wire, hqueue, -⟩ := hadmits
    exact ⟨o', wire, hqueue⟩
  · rwa [if_neg hfit] at hadmits

structure AmpleVisit (v : Visit) : Prop where
  mem : v.mem = fun _ => .ample
  running : v.running = true
  socket : v.socket ≠ none

theorem player_moves_iff (h : Stamped fan ps) {v : Visit} (hv : AmpleVisit v) {p : Player}
    (hplaying : p.playing = true) (ho : Sound playerLimits p.out) (hempty : p.out.out = [])
    (hnext : next fan p.cursor = some unit) :
    unit.sequence < (playTimer v fan p).cursor ↔ unit.size ≤ 32 * outChunk := by
  obtain ⟨hqueue, hslim⟩ := ho.slim_empty hempty
  have hadmitted := unit_admitted h ho hslim (by decide) (by decide) 1
    (show 4 < RtmpWriter.maxOutCsid by decide) hnext none (by simp)
  rw [hqueue, Nat.zero_add, show playerLimits.maxQueue = 32 * 2 from rfl,
    if_congr (partsOf_le_iff (by decide)) rfl rfl] at hadmitted
  obtain ⟨n, hsocket⟩ := Option.ne_none_iff_exists'.mp hv.socket
  have hcursor : (playTimer v fan p).cursor =
      (playLoop (fun _ => .ample) fan maxPlayBatch p).cursor := by
    simp only [playTimer, hplaying, hv.running, hv.mem, hsocket, Bool.true_eq_false, if_false]
    unfold RtmpPlayer.flush
    split
    · rfl
    · rfl
  have hroom : p.out.outQueue < playerLimits.maxQueue := by
    rw [hqueue]
    decide
  rw [hcursor, show maxPlayBatch = 31 + 1 from rfl, playLoop, if_pos hroom, hnext]
  dsimp only
  by_cases hfit : unit.size ≤ 32 * outChunk
  · rw [if_pos hfit] at hadmitted
    obtain ⟨o', wire, hqueued⟩ := hadmitted
    rw [hqueued]
    have hmono := playLoop_cursor h (fun _ => .ample) 31 (p.advance o' unit)
    exact iff_of_true hmono hfit
  · rw [if_neg hfit] at hadmitted
    rw [hadmitted]
    have hmax := (h.next hnext).1
    refine iff_of_false ?_ hfit
    dsimp only
    omega

theorem csidOf_lt (unit : Media) : csidOf unit < RtmpWriter.maxOutCsid := by
  unfold csidOf
  split_ifs
  · decide
  · decide

theorem pumpLoop_succ (mem : ℕ → Memory) (fan : Fanout) (budget n : ℕ) (p : Pumping) :
    ((pumpLoop mem fan budget (n + 1) p).dest = p.dest ∧
      ((pumpLoop mem fan budget (n + 1) p).failed = p.failed ∨
        ∃ unit, next fan p.dest.cursor = some unit ∧
          (queueMessage destLimits (mem n) p.dest.out
            (unitMessage (csidOf unit) p.dest.streamId unit)
            (some (budget - p.bytes))).2.1 = .error)) ∨
      ∃ unit out wire, next fan p.dest.cursor = some unit ∧
        queueMessage destLimits (mem n) p.dest.out
          (unitMessage (csidOf unit) p.dest.streamId unit) (some (budget - p.bytes)) =
          (out, .ok, wire) ∧
        pumpLoop mem fan budget (n + 1) p =
          pumpLoop mem fan budget n (p.advance out unit wire) := by
  rw [pumpLoop]
  split
  · split
    · exact Or.inl ⟨rfl, Or.inl rfl⟩
    · rename_i unit hnext
      split
      · rename_i out wire hqueue
        exact Or.inr ⟨unit, out, wire, hnext, hqueue, rfl⟩
      · exact Or.inl ⟨rfl, Or.inl rfl⟩
      · exact Or.inl ⟨rfl, Or.inl rfl⟩
      · rename_i hqueue
        exact Or.inl ⟨rfl, Or.inr ⟨unit, hnext, by rw [hqueue]⟩⟩
  · exact Or.inl ⟨rfl, Or.inl rfl⟩

theorem pumpLoop_ample (h : Stamped fan ps) (budget n : ℕ) (p : Pumping)
    (ho : Sound destLimits p.dest.out) :
    p.dest.cursor ≤ (pumpLoop (fun _ => .ample) fan budget n p).dest.cursor ∧
      (pumpLoop (fun _ => .ample) fan budget n p).failed = p.failed := by
  induction n generalizing p with
  | zero => exact ⟨le_rfl, rfl⟩
  | succ n ih =>
    rcases pumpLoop_succ (fun _ => .ample) fan budget n p with
      ⟨hdest, hfailed⟩ | ⟨unit, out, wire, hnext, hqueue, heq⟩
    · refine ⟨le_of_eq (congrArg Dest.cursor hdest).symm, ?_⟩
      rcases hfailed with hsame | ⟨unit, hnext, herror⟩
      · exact hsame
      · obtain ⟨payload, -, hmessage⟩ := unitMessage_whole h hnext (csidOf unit) p.dest.streamId
        rw [hmessage] at herror
        exact absurd herror (ho.no_error _ _ _ _ (csidOf_lt unit) _)
    · have hmax := (h.next hnext).1
      have hout := ho.queueMessage .ample (unitMessage (csidOf unit) p.dest.streamId unit)
        (some (budget - p.bytes))
      rw [hqueue] at hout
      rw [heq]
      obtain ⟨hcursor, hfailed⟩ := ih (p.advance out unit wire) hout
      change unit.sequence + 1 ≤ _ at hcursor
      exact ⟨by omega, hfailed⟩

theorem flush_cursor (now n : ℕ) (d : Dest) : (d.flush now (some n)).cursor = d.cursor := by
  unfold Dest.flush
  split
  · rfl
  · rfl

theorem pumpEnd_cursor {env : Pump} (hsocket : env.socket = some n) (prep : Prepare) (queued : ℕ)
    (p : Pumping) : (pumpEnd env prep queued p).dest.cursor = p.dest.cursor := by
  unfold pumpEnd
  dsimp only
  rw [hsocket]
  generalize hd : (if (p.blocked = true ∨ p.dest.out.outQueue ≥ destLimits.maxQueue) ∧
    (next prep.fan p.dest.cursor).isSome = true then
      { p.dest with backpressureEvents := p.dest.backpressureEvents + 1 } else p.dest) = d
  have hcursor : d.cursor = p.dest.cursor := by
    rw [← hd]
    split
    · rfl
    · rfl
  generalize hflushed : (if p.units > 0 ∨ d.out.outBytes > queued then
    d.flush env.now (some n) else d) = flushed
  have hsame : flushed.cursor = p.dest.cursor := by
    rw [← hflushed, ← hcursor]
    split
    · exact flush_cursor _ _ _
    · rfl
  split
  · exact hsame
  split
  · exact hsame
  · exact hsame

/-- A visit with memory for everything, on a socket that does not fail. -/
structure Ample (env : Pump) : Prop where
  headerMem : ∀ k, env.headerMem k = true
  metadataMem : env.metadataMem = .ample
  mem : env.mem = fun _ => .ample
  socket : env.socket ≠ none

/-- The destination is about to leave the retained units behind for its own announcement. -/
def Jumps (prep : Prepare) (d : Dest) : Prop :=
  d.metadataSent = false ∧ d.announced = false ∧ d.cursor = 0 ∧ 0 < prep.fan.tail

/-- The buffers of the metadata that the visit sends first. -/
def metadataParts (env : Pump) (d : Dest) : ℕ :=
  if d.metadataSent = false ∧ env.tracks ≠ some [] ∧ env.metadata ≠ none then 2 else 0

variable {env : Pump} {prep prep' : Prepare} {d d' : Dest} {tracks : List Track}

theorem metadata_parts (metadata : Metadata) : partsOf metadata.val.length = 2 := by
  obtain ⟨bytes, hne, hlen⟩ := metadata
  have hpos := List.length_pos_iff.mpr hne
  unfold amfBuffer at hlen
  change partsOf bytes.length = 2
  unfold partsOf outChunk
  rw [if_neg (by omega)]
  omega

theorem sendMetadata_out (he : Ample env) (htracks : env.tracks = some tracks)
    (ho : Sound destLimits d.out) (hempty : d.out.out = []) (hsent : d.metadataSent = false) :
    Sound destLimits (sendMetadata env tracks d).out ∧ Slim (sendMetadata env tracks d).out ∧
      (sendMetadata env tracks d).out.outQueue = metadataParts env d ∧
      (sendMetadata env tracks d).cursor = d.cursor := by
  obtain ⟨hqueue, hslim⟩ := ho.slim_empty hempty
  unfold sendMetadata metadataParts
  rw [htracks]
  by_cases hnil : tracks = []
  · rw [if_pos hnil, if_neg (by simp [hnil])]
    exact ⟨ho, hslim, hqueue, rfl⟩
  · rw [if_neg hnil]
    cases hmetadata : env.metadata with
    | none =>
      rw [if_neg (by simp)]
      exact ⟨ho, hslim, hqueue, rfl⟩
    | some bytes =>
      have hadmits := ho.admits (by decide) msgDataAmf0 d.streamId 0 bytes.val
        (show csidData < RtmpWriter.maxOutCsid by decide) (hslim.bytesRoom (by decide))
        (show ∀ budget ∈ some destLimits.maxBytes, destLimits.maxBytes ≤ budget by simp)
      rw [metadata_parts, hqueue, if_pos (by decide)] at hadmits
      obtain ⟨o', wire, hqueued, hparts, hbytes⟩ := hadmits
      have hsound := ho.queueMessage .ample (whole csidData msgDataAmf0 d.streamId 0 bytes.val)
        (some destLimits.maxBytes)
      rw [if_pos (by simp [hsent, hnil])]
      dsimp only
      rw [he.metadataMem]
      rw [hqueued] at hsound ⊢
      refine ⟨hsound, ?_, hparts, rfl⟩
      unfold Slim at hslim ⊢
      rw [hqueue] at hslim
      rw [hparts]
      change o'.outBytes ≤ _
      omega

theorem introduce_some (htracks : env.tracks = some tracks) (hsent : d.metadataSent = false)
    (honce : announceOnce env tracks prep d = (prep', d')) :
    introduce env prep d = some (prep', { sendMetadata env tracks d' with metadataSent := true }) := by
  unfold introduce
  rw [if_neg (by simp [hsent]), htracks]
  dsimp only
  rw [honce]

theorem announceOnce_jump (he : Ample env) (hjumps : Jumps prep d) :
    announceOnce env tracks prep d =
      ((announce env.headerMem prep tracks).1,
        { d with announced := true, cursor := prep.fan.head }) := by
  obtain ⟨hsent, hannounced, hcursor, htail⟩ := hjumps
  have hok := announce_ok he.headerMem prep tracks
  unfold announceOnce
  rw [if_neg (by simp [hannounced])]
  dsimp only
  rw [if_pos ⟨hcursor, htail⟩]
  generalize announce env.headerMem prep tracks = r at hok ⊢
  obtain ⟨next, rc⟩ := r
  cases hok
  rfl

theorem announceOnce_stay (hsent : d.metadataSent = false) (hjumps : ¬Jumps prep d) :
    announceOnce env tracks prep d = (prep, { d with announced := true }) := by
  unfold announceOnce
  by_cases hannounced : d.announced = true
  · rw [if_pos hannounced]
    cases d
    simp_all
  · rw [if_neg hannounced]
    dsimp only
    rw [if_neg]
    intro hbehind
    exact hjumps ⟨hsent, Bool.eq_false_iff.mpr hannounced, hbehind.1, hbehind.2⟩

theorem pumpLoop_moves (h : Stamped fan ps) {sampled : Dest} (ho : Sound destLimits sampled.out)
    (hslim : Slim sampled.out) (hroom : sampled.out.outQueue < destLimits.maxQueue)
    (hnext : next fan sampled.cursor = some unit) (k : ℕ) :
    unit.sequence < (pumpLoop (fun _ => .ample) fan schedBytes (k + 1)
        ⟨sampled, 0, 0, false, false, false⟩).dest.cursor ↔
      sampled.out.outQueue + partsOf unit.size ≤ destLimits.maxQueue := by
  have hadmitted := unit_admitted h ho hslim (by decide) (by decide) sampled.streamId
    (csidOf_lt unit) hnext (some (schedBytes - 0)) (by
      simp only [Option.mem_def, Option.some.injEq]
      rintro budget rfl
      decide)
  rw [pumpLoop, if_pos hroom, hnext]
  dsimp only
  by_cases hfit : sampled.out.outQueue + partsOf unit.size ≤ destLimits.maxQueue
  · rw [if_pos hfit] at hadmitted
    obtain ⟨o', wire, hqueued⟩ := hadmitted
    have hsound := ho.queueMessage .ample (unitMessage (csidOf unit) sampled.streamId unit)
      (some (schedBytes - 0))
    rw [hqueued] at hsound ⊢
    exact iff_of_true (pumpLoop_ample h schedBytes k
      (Pumping.advance ⟨sampled, 0, 0, false, false, false⟩ o' unit wire) hsound).1 hfit
  · rw [if_neg hfit] at hadmitted
    rw [hadmitted]
    have hmax := (h.next hnext).1
    refine iff_of_false ?_ hfit
    dsimp only
    omega

theorem sampleResources_batch (env : Pump) (d : Dest) :
    ∃ k, (sampleResources env d).batch.elim 0 Batch.units = k + 1 := by
  unfold sampleResources
  split
  · cases env.pressed
    · exact ⟨31, rfl⟩
    · exact ⟨7, rfl⟩
  · rename_i hkeep
    cases hbatch : d.batch with
    | none => exact absurd (Or.inl hbatch) hkeep
    | some b =>
      cases b
      · exact ⟨7, rfl⟩
      · exact ⟨31, rfl⟩

theorem sampleResources_same (env : Pump) (d : Dest) :
    (sampleResources env d).out = d.out ∧ (sampleResources env d).cursor = d.cursor := by
  unfold sampleResources
  split
  · exact ⟨rfl, rfl⟩
  · exact ⟨rfl, rfl⟩

theorem pump_cursor (he : Ample env) (h : Stamped prep'.fan ps) (hprepared : d.prepared = true)
    (hstate : d.state = .publishing) (hintroduce : introduce env prep d = some (prep', d'))
    (ho : Sound destLimits d'.out) :
    ∃ k sampled, sampled.out = d'.out ∧ sampled.cursor = d'.cursor ∧
      (pump env schedUnits schedBytes prep d).dest.cursor =
        (pumpLoop (fun _ => .ample) prep'.fan schedBytes (k + 1)
          ⟨sampled, 0, 0, false, false, false⟩).dest.cursor := by
  obtain ⟨k, hk⟩ := sampleResources_batch env d'
  obtain ⟨hout, hcursor⟩ := sampleResources_same env d'
  obtain ⟨n, hsocket⟩ := Option.ne_none_iff_exists'.mp he.socket
  have hbatch : min (k + 1) schedUnits = min k 511 + 1 := by
    unfold schedUnits
    omega
  have hfailed := (pumpLoop_ample h schedBytes (min k 511 + 1)
    ⟨sampleResources env d', 0, 0, false, false, false⟩ (by rwa [hout])).2
  refine ⟨min k 511, _, hout, hcursor, ?_⟩
  unfold pump
  rw [if_neg (by simp [hprepared, hstate]), hintroduce]
  dsimp only
  rw [hk, hbatch, he.mem, if_neg (by simp [hfailed])]
  exact pumpEnd_cursor hsocket _ _ _

/-- The pump of a destination whose queue is empty gets past the unit at the cursor exactly when
it knows the tracks or has introduced itself, and then when it leaves the unit behind for its own
announcement or the unit's buffers fit beside those of the metadata. -/
theorem destination_moves_iff (he : Ample env) (h : Stamped prep.fan ps)
    (hprepared : d.prepared = true) (hstate : d.state = .publishing)
    (ho : Sound destLimits d.out) (hempty : d.out.out = [])
    (hnext : next prep.fan d.cursor = some unit) :
    unit.sequence < (pump env schedUnits schedBytes prep d).dest.cursor ↔
      (d.metadataSent = true ∨ env.tracks ≠ none) ∧
        (Jumps prep d ∨ metadataParts env d + partsOf unit.size ≤ 64 * 2) := by
  obtain ⟨hqueue, hslim⟩ := ho.slim_empty hempty
  by_cases hsent : d.metadataSent = true
  · -- nothing is queued before the unit is offered
    obtain ⟨k, sampled, hout, hcursor, hpump⟩ :=
      pump_cursor he h hprepared hstate (show introduce env prep d = some (prep, d) from if_pos hsent)
        ho
    have hmoves := pumpLoop_moves h (hout ▸ ho) (hout ▸ hslim) (by rw [hout, hqueue]; decide)
      (hcursor ▸ hnext) k
    have hparts : metadataParts env d = 0 := if_neg (by simp [hsent])
    have hjumps : ¬Jumps prep d := fun hj => absurd (hj.1.symm.trans hsent) (by decide)
    rw [hpump, hmoves, hparts, hout, hqueue]
    simp only [hsent, true_or, true_and, hjumps, false_or]
    rfl
  · rw [Bool.not_eq_true] at hsent
    cases htracks : env.tracks with
    | none =>
      refine iff_of_false ?_ (by simp [hsent])
      have hstay : (pump env schedUnits schedBytes prep d).dest = d := by
        unfold pump introduce
        simp [hprepared, hstate, hsent, htracks]
      have hmax := (h.next hnext).1
      rw [hstay]
      omega
    | some tracks =>
      rw [and_iff_right (Or.inr (Option.some_ne_none tracks))]
      by_cases hjumps : Jumps prep d
      · -- the unit is left behind whatever becomes of the headers
        have hstamped := announce_stamped h env.headerMem tracks
        obtain ⟨hsound, -, -, hhead⟩ := sendMetadata_out he htracks
          (show Sound destLimits ({ d with announced := true, cursor := prep.fan.head } : Dest).out
            from ho) hempty hsent
        obtain ⟨k, sampled, hout, hcursor, hpump⟩ := pump_cursor he hstamped hprepared hstate
          (introduce_some htracks hsent (announceOnce_jump he hjumps)) hsound
        have hmono := (pumpLoop_ample hstamped schedBytes (k + 1)
          ⟨sampled, 0, 0, false, false, false⟩ (hout ▸ hsound)).1
        have hlt := (h.next hnext).2.1
        rw [hpump]
        refine iff_of_true ?_ (Or.inl hjumps)
        exact lt_of_lt_of_le hlt (le_trans (le_of_eq (hcursor.trans hhead).symm) hmono)
      · obtain ⟨hsound, hslim', hqueue', hsame⟩ := sendMetadata_out he htracks
          (show Sound destLimits ({ d with announced := true } : Dest).out from ho) hempty hsent
        obtain ⟨k, sampled, hout, hcursor, hpump⟩ := pump_cursor he h hprepared hstate
          (introduce_some htracks hsent (announceOnce_stay hsent hjumps)) hsound
        have hparts : metadataParts env d ≤ 2 := by
          unfold metadataParts
          split_ifs <;> omega
        have hroom : sampled.out.outQueue < destLimits.maxQueue := by
          rw [hout, hqueue']
          exact lt_of_le_of_lt hparts (by decide)
        have hmoves := pumpLoop_moves h (hout ▸ hsound) (hout ▸ hslim') hroom
          (by rw [hcursor, hsame]; exact hnext) k
        rw [hpump, hmoves, hout, hqueue']
        simp only [hjumps, false_or]
        rfl

/-- What a visit makes of the unit at the cursor, for a player and for a destination whose output
queues are in any state they can be in and empty. -/
theorem receivers_move_iff (units maxBytes : ℕ) (calls : List RtmpFanout.Call) (ops : List Op)
    (unit : Media) :
    (∀ (v : Visit) (p : Player), AmpleVisit v → p.playing = true →
      p.out = RtmpOutput.run playerLimits ops → p.out.out = [] →
      next (RtmpFanout.run (RtmpFanout.init units maxBytes) calls) p.cursor = some unit →
      (unit.sequence <
          (playTimer v (RtmpFanout.run (RtmpFanout.init units maxBytes) calls) p).cursor ↔
        unit.size ≤ 32 * outChunk)) ∧
    ∀ (env : Pump) (prep : Prepare) (d : Dest), Ample env →
      prep.fan = RtmpFanout.run (RtmpFanout.init units maxBytes) calls → d.prepared = true →
      d.state = .publishing → d.out = RtmpOutput.run destLimits ops → d.out.out = [] →
      next prep.fan d.cursor = some unit →
      (unit.sequence < (pump env schedUnits schedBytes prep d).dest.cursor ↔
        (d.metadataSent = true ∨ env.tracks ≠ none) ∧
          (Jumps prep d ∨ metadataParts env d + partsOf unit.size ≤ 64 * 2)) := by
  have hstamped := RtmpCursor.run_stamped units maxBytes calls
  constructor
  · intro v p hv hplaying hout hempty hnext
    exact player_moves_iff hstamped hv hplaying (hout ▸ run_sound playerLimits ops) hempty hnext
  · intro env prep d he hfan hprepared hstate hout hempty hnext
    exact destination_moves_iff he (hfan ▸ hstamped) hprepared hstate
      (hout ▸ run_sound destLimits ops) hempty hnext

def plainVisit : Visit := ⟨fun _ => .ample, true, some 0⟩

def plainPlayer : Player := ⟨true, 0, Output.init, []⟩

theorem receivers_move_one_byte :
    ∃ unit, next (RtmpFanout.run (RtmpFanout.init 4 0) [.push oneByte]) 0 = some unit ∧
      unit.sequence <
        (playTimer plainVisit (RtmpFanout.run (RtmpFanout.init 4 0) [.push oneByte])
          plainPlayer).cursor := by
  have hnext : next (RtmpFanout.run (RtmpFanout.init 4 0) [.push oneByte]) 0 =
      some (oneByte.unit 0) := by decide +kernel
  refine ⟨oneByte.unit 0, hnext, ?_⟩
  exact ((receivers_move_iff 4 0 [.push oneByte] [] (oneByte.unit 0)).1 plainVisit plainPlayer
    ⟨rfl, rfl, by decide⟩ rfl rfl rfl hnext).mpr (by decide)

def largeKeyframe : Push := ⟨msgVideo, 0, 0, List.replicate (32 * outChunk + 1) 0, true, false⟩

theorem next_first (q : Push) : next (overwrite (RtmpFanout.init 1024 0) q) 0 = some (q.unit 0) :=
  rfl

theorem run_first {q : Push} (h : ¬mustEvict (overwrite (RtmpFanout.init 1024 0) q)) :
    RtmpFanout.run (RtmpFanout.init 1024 0) [.push q] =
      overwrite (RtmpFanout.init 1024 0) q := by
  change evictLoop 1 _ = _
  rw [evictLoop, if_neg h]

/-- The player keeps its cursor at the keyframe, with nothing in its queue. -/
theorem large_keyframe_stalls :
    next (RtmpFanout.run (RtmpFanout.init 1024 0) [.push largeKeyframe]) 0 =
        some (largeKeyframe.unit 0) ∧
      ¬(largeKeyframe.unit 0).sequence <
        (playTimer plainVisit (RtmpFanout.run (RtmpFanout.init 1024 0) [.push largeKeyframe])
          plainPlayer).cursor := by
  have hlength : largeKeyframe.payload.length = 32 * outChunk + 1 := List.length_replicate
  have hkeep : ¬mustEvict (overwrite (RtmpFanout.init 1024 0) largeKeyframe) := by
    unfold mustEvict overwrite
    rw [hlength]
    decide
  have hnext : next (RtmpFanout.run (RtmpFanout.init 1024 0) [.push largeKeyframe]) 0 =
      some (largeKeyframe.unit 0) :=
    (congrArg (next · 0) (run_first hkeep)).trans (next_first largeKeyframe)
  refine ⟨hnext, ?_⟩
  have hstamped := RtmpCursor.run_stamped 1024 0 [.push largeKeyframe]
  rw [player_moves_iff hstamped (v := plainVisit) ⟨rfl, rfl, by decide⟩ (p := plainPlayer) rfl
    (init_sound playerLimits) rfl hnext]
  change ¬largeKeyframe.payload.length ≤ 32 * outChunk
  rw [hlength]
  omega

end RtmpProgress

import NginxMedia.TsFeed
import NginxMedia.TsTables

/-! Frames through the muxer and the demultiplexer. A session is the muxer with the burst that
is being filled; the demultiplexer follows its stream packet by packet. -/
namespace TsRoundTrip

open MediaTypes TsMux TsDemux TsUnits TsPackets TsTables

inductive Call where
  | burst (capacity : ℕ) (allocs : Bool)
  | frame (f : Frame) (pcr : Bool)
  deriving DecidableEq, Repr

structure Session where
  mux : Mux
  ended : List UInt8
  current : Option Burst
  written : List Frame
  deriving DecidableEq, Repr

def Session.stream (s : Session) : List UInt8 :=
  match s.current with
  | none => s.ended
  | some burst => s.ended ++ burst.bytes

def Session.endBurst (s : Session) : Session :=
  match s.current with
  | none => s
  | some burst => { s with
      mux := burstEnd s.mux burst, ended := s.ended ++ burst.bytes, current := none }

def step (s : Session) : Call → Session
  | .burst capacity allocs =>
    { s.endBurst with
      mux := (burstInit s.endBurst.mux capacity allocs).1
      current := (burstInit s.endBurst.mux capacity allocs).2 }
  | .frame f pcr =>
    match s.current with
    | none => s
    | some burst =>
      { s with
        mux := (writeFrame s.mux burst f pcr).2.1
        current := some (writeFrame s.mux burst f pcr).2.2
        written := if (writeFrame s.mux burst f pcr).1 = .ok then s.written ++ [f] else s.written }

def Session.start (mux : Mux) : Session := ⟨mux, [], none, []⟩

variable {mem : Memory} {mux mux' : Mux} {c c' : Core} {written : List Frame}
  {pend : ℕ → Option Frame} {i : ℕ} {r : ℕ × ℕ} {f : Frame} {data : Payload}

theorem Airs.kinds (ha : Airs mux) :
    (mux.videoStreamType ≠ 0 → kind mux.videoStreamType = .video) ∧
      (mux.audioStreamType ≠ 0 → kind mux.audioStreamType = .audio) := by
  constructor
  · intro hne
    rcases ha.video with h | h | h
    · contradiction
    · rw [h]
      decide
    · rw [h]
      decide
  · intro hne
    rcases ha.audio with h | h
    · contradiction
    · rw [h]
      decide

theorem programme_mem (ha : Airs mux) (hr : r ∈ programme mux) :
    mux.pidOf (kind r.2) = r.1 ∧ r.1 ≠ TsDemux.pidPat ∧ r.1 < pidNull ∧
      r.1 ≠ mux.conf.pmtPid := by
  obtain ⟨hv, hau⟩ := Airs.kinds ha
  rcases List.mem_append.mp hr with hr | hr
  · split_ifs at hr with h0
    · contradiction
    · obtain rfl := List.mem_singleton.mp hr
      refine ⟨?_, ha.pids.video_pos, ha.pids.video_lt, ha.pids.video_pmt⟩
      rw [hv h0]
      rfl
  · split_ifs at hr with h0
    · contradiction
    · obtain rfl := List.mem_singleton.mp hr
      refine ⟨?_, ha.pids.audio_pos, ha.pids.audio_lt, ha.pids.audio_pmt⟩
      rw [hau h0]
      rfl

theorem pidOf_kind (ha : Airs mux) {s s' : ℕ} (h : mux.pidOf (kind s) = mux.pidOf (kind s')) :
    kind s = kind s' := by
  have hne := ha.pids.video_audio
  rcases kind_cases s with hs | hs <;> rcases kind_cases s' with hs' | hs'
  · rw [hs, hs']
  · rw [hs, hs'] at h
    exact absurd h hne
  · rw [hs, hs'] at h
    exact absurd h.symm hne
  · rw [hs, hs']

theorem programme_kind (ha : Airs mux) {j : ℕ} {r' : ℕ × ℕ} (hi : (programme mux)[i]? = some r)
    (hj : (programme mux)[j]? = some r') (hk : kind r.2 = kind r'.2) : i = j := by
  obtain ⟨hv, hau⟩ := Airs.kinds ha
  have hnodup : ((programme mux).map fun r => kind r.2).Nodup := by
    unfold programme
    split_ifs with h0 h1 h1
    · simp
    · simp
    · simp
    · simp [hv h0, hau h1]
  have hmap : ∀ {n : ℕ} {x : ℕ × ℕ}, (programme mux)[n]? = some x →
      ((programme mux).map fun r => kind r.2)[n]? = some (kind x.2) := by
    intro n x hn
    rw [List.getElem?_map, hn]
    rfl
  have hlt : i < ((programme mux).map fun r => kind r.2).length :=
    (List.getElem?_eq_some_iff.mp (hmap hi)).1
  apply (List.getElem?_inj hlt hnodup).mp
  rw [hmap hi, hmap hj, hk]

theorem programme_congr (hconf : mux'.conf = mux.conf)
    (hv : mux'.videoStreamType = mux.videoStreamType)
    (ha : mux'.audioStreamType = mux.audioStreamType) : programme mux' = programme mux := by
  simp only [programme, hconf, hv, ha]

theorem airs_congr (ha : Airs mux) (hconf : mux'.conf = mux.conf)
    (hv : mux'.videoStreamType = mux.videoStreamType)
    (hau : mux'.audioStreamType = mux.audioStreamType)
    (hready : mux'.tracksReady = mux.tracksReady) : Airs mux' := by
  constructor
  · rw [hready, ha.ready]
  · rw [hv]
    exact ha.video
  · rw [hau]
    exact ha.audio
  · rw [hconf]
    exact ha.pids

structure Cell (mux : Mux) (written : List Frame) (pend : Option Frame) (i : ℕ) (r : ℕ × ℕ)
    (c : Core) (t : EsTrack) : Prop where
  held : c.tracks[i]? = some t
  rests : Rests c.maxAuBytes r i pend t
  cc : Expects t.cc (mux.ccOf (kind r.2))
  frames : (media c.out).filter (fun f => f.trackIndex = i) ++
      pend.toList.map (received r.2 i) =
    (written.filter fun f => f.mediaType = kind r.2).map (received r.2 i)

structure Playing (mux : Mux) (written : List Frame) (pend : ℕ → Option Frame) (c : Core) :
    Prop where
  table : (view c).pmtPid = some mux.conf.pmtPid
  cells : c.tracks.length = (programme mux).length
  indexed : ∀ f ∈ media c.out, f.trackIndex < (programme mux).length
  cell : ∀ i r, (programme mux)[i]? = some r → ∃ t, Cell mux written (pend i) i r c t

theorem Playing.routed (hp : Playing mux written pend c) (ha : Airs mux)
    (hi : (programme mux)[i]? = some r) : Routed c r.1 i := by
  obtain ⟨hpid, hpos, hlt, hpmt⟩ := programme_mem ha (List.mem_of_getElem? hi)
  refine ⟨hpos, hlt, ?_, ?_⟩
  · rw [(view_pmtPid hp.table).2]
    exact hpmt
  · intro j t hj ht
    obtain ⟨hjlt, -⟩ := List.getElem?_eq_some_iff.mp hj
    rw [hp.cells] at hjlt
    have hr' : (programme mux)[j]? = some (programme mux)[j] := List.getElem?_eq_getElem hjlt
    obtain ⟨t', ht'⟩ := hp.cell j _ hr'
    obtain rfl : t = t' := Option.some.inj (hj.symm.trans ht'.held)
    obtain ⟨hpid', -⟩ := programme_mem ha (List.mem_of_getElem? hr')
    refine (programme_kind ha hi hr' (pidOf_kind ha ?_)).symm
    rw [hpid, hpid', ← ht'.rests.plays.pid, ht]

theorem Playing.move (hp : Playing mux written pend c) (ha : Airs mux)
    (hi : (programme mux)[i]? = some r) {fs new : List Frame} {u : EsTrack} {held : Option Frame}
    (hconf : mux'.conf = mux.conf) (hsame : programme mux' = programme mux)
    (hother : ∀ k, (k = .audio ↔ kind r.2 ≠ .audio) → mux'.ccOf k = mux.ccOf k)
    (he : Emits fs (c.putTrack u) c') (hfs : ∀ f ∈ fs, f.trackIndex = i)
    (hnew : ∀ f ∈ new, f.mediaType = kind r.2) (hrests : Rests c.maxAuBytes r i held u)
    (hcc : Expects u.cc (mux'.ccOf (kind r.2)))
    (hframes : (pend i).toList.map (received r.2 i) ++ new.map (received r.2 i) =
      fs ++ held.toList.map (received r.2 i)) :
    Playing mux' (written ++ new) (Function.update pend i held) c' := by
  obtain ⟨t, ht⟩ := hp.cell i r hi
  have hindex : u.trackIndex = i := hrests.plays.trackIndex
  have htracks : c'.tracks = c.tracks.set i u := by
    rw [he.tracks, Core.putTrack, hindex]
  have hmedia : media c'.out = media c.out ++ fs := he.media
  have hlen : i < (programme mux).length := (List.getElem?_eq_some_iff.mp hi).1
  refine ⟨?_, ?_, ?_, ?_⟩
  · have hview : (view c').pmtPid = (view c).pmtPid := by
      simp only [view, he.patValid, he.pmtPid, Core.putTrack]
    rw [hview, hp.table, hconf]
  · rw [htracks, List.length_set, hp.cells, hsame]
  · rw [hsame, hmedia]
    intro f hf
    rcases List.mem_append.mp hf with hf | hf
    · exact hp.indexed f hf
    · rw [hfs f hf]
      exact hlen
  · rw [hsame]
    intro j r' hj
    by_cases hji : j = i
    · -- the stream itself
      subst hji
      obtain rfl : r' = r := Option.some.inj (hj.symm.trans hi)
      rw [Function.update_self]
      refine ⟨u, cell_put ht.held hindex he, ?_, hcc, ?_⟩
      · rw [he.maxAuBytes]
        exact hrests
      · have hall : fs.filter (fun f => f.trackIndex = j) = fs :=
          List.filter_eq_self.mpr fun f hf => by simpa using hfs f hf
        have hall' : new.filter (fun f => f.mediaType = kind r'.2) = new :=
          List.filter_eq_self.mpr fun f hf => by simpa using hnew f hf
        rw [hmedia, List.filter_append, List.filter_append, hall, hall', List.map_append,
          ← ht.frames, List.append_assoc, List.append_assoc, hframes]
    · -- the other one
      obtain ⟨t', ht'⟩ := hp.cell j r' hj
      have hkind : kind r'.2 ≠ kind r.2 := fun hk => hji (programme_kind ha hj hi hk)
      have hcc' : mux'.ccOf (kind r'.2) = mux.ccOf (kind r'.2) := by
        apply hother
        rcases kind_cases r.2 with hk | hk <;> rcases kind_cases r'.2 with hk' | hk' <;>
          simp_all
      have hnone : fs.filter (fun f => f.trackIndex = j) = [] := by
        apply List.filter_eq_nil_iff.mpr
        intro f hf
        simpa [hfs f hf] using fun h => hji h.symm
      have hnone' : new.filter (fun f => f.mediaType = kind r'.2) = [] := by
        apply List.filter_eq_nil_iff.mpr
        intro f hf
        simpa [hnew f hf] using fun h => hkind h.symm
      rw [Function.update_of_ne hji]
      refine ⟨t', ?_, ?_, ?_, ?_⟩
      · rw [htracks, List.getElem?_set_ne fun h => hji h.symm]
        exact ht'.held
      · rw [he.maxAuBytes]
        exact ht'.rests
      · rw [hcc']
        exact ht'.cc
      · rw [hmedia, List.filter_append, List.filter_append, hnone, hnone', List.append_nil,
          List.append_nil]
        exact ht'.frames

theorem Playing.frame (hp : Playing mux written pend c) (hm : Plenty mem) (ha : Airs mux)
    (hi : (programme mux)[i]? = some r) (he : Elementary c.maxAuBytes r.2 f data) {pcr : Bool}
    {burst burst' : Burst} {packets : List (List UInt8)}
    (hpackets : packets = pesPackets (mux.pidOf f.mediaType) f.dts (mux.ccOf f.mediaType) true pcr
      (pesHeader f data.length ++ data)) (hw : Wrote mux burst f packets mux' burst') :
    ∃ fs u pend', Emits fs (c.putTrack u) (packets.foldl (processPacket mem) c) ∧
      Playing mux' (written ++ [f]) pend' (packets.foldl (processPacket mem) c) := by
  obtain ⟨t, ht⟩ := hp.cell i r hi
  obtain ⟨hpid, -⟩ := programme_mem ha (List.mem_of_getElem? hi)
  have hown := hw.own
  have hother := hw.other
  have hsame := programme_congr hw.conf hw.videoStreamType hw.audioStreamType
  rw [he.mediaType] at hown hother
  rw [he.mediaType, hpid] at hpackets
  obtain ⟨fs, u, hemit, hafter, hcc⟩ := unit_packets hm f.dts pcr he (hp.routed ha hi) ht.held
    ht.rests ht.cc
  rw [← hpackets] at hemit hcc
  have hnew : ∀ g ∈ [f], g.mediaType = kind r.2 := by
    intro g hg
    rw [List.mem_singleton.mp hg]
    exact he.mediaType
  have hindex : ∀ g ∈ (pend i).toList.map (received r.2 i) ++ fs, g.trackIndex = i := by
    intro g hg
    rcases List.mem_append.mp hg with hg | hg
    · obtain ⟨g', -, rfl⟩ := List.mem_map.mp hg
      rfl
    · unfold After at hafter
      split_ifs at hafter
      · rw [hafter.2] at hg
        rw [List.mem_singleton.mp hg]
        rfl
      · rw [hafter.2] at hg
        contradiction
  unfold After at hafter
  by_cases hk : kind r.2 = .audio
  · -- the frame itself is out
    rw [if_pos ⟨rfl, hk⟩] at hafter
    obtain ⟨hidle, rfl⟩ := hafter
    have hrests : Rests c.maxAuBytes r i none u := hidle
    exact ⟨_, u, _, hemit, hp.move ha hi hw.conf hsame hother hemit hindex hnew hrests
      (hcc.of_mod hown) (by simp)⟩
  · -- the frame waits for the next one
    rw [if_neg fun h => hk h.2] at hafter
    obtain ⟨hgathers, rfl⟩ := hafter
    have hrests : Rests c.maxAuBytes r i (some f) u := ⟨data, he, hgathers⟩
    exact ⟨_, u, _, hemit, hp.move ha hi hw.conf hsame hother hemit hindex hnew hrests
      (hcc.of_mod hown) (by simp)⟩

theorem Playing.flushed (hp : Playing mux written pend c) (hm : Plenty mem) (ha : Airs mux)
    {t : EsTrack} (hi : (programme mux)[i]? = some r) (ht : c.tracks[i]? = some t) :
    ∃ fs u, Emits fs (c.putTrack u) ((auFlush mem c t).1.putTrack (auFlush mem c t).2) ∧
      Playing mux written (Function.update pend i none)
        ((auFlush mem c t).1.putTrack (auFlush mem c t).2) := by
  obtain ⟨t', ht'⟩ := hp.cell i r hi
  obtain rfl : t' = t := Option.some.inj (ht'.held.symm.trans ht)
  obtain ⟨hemit, hidle, hcc⟩ := auFlush_rests hm ht'.rests
  have hput := hemit.putTrack (auFlush mem c t').2
  have hrests : Rests c.maxAuBytes r i none (auFlush mem c t').2 := hidle
  have hindex : ∀ g ∈ (pend i).toList.map (received r.2 i), g.trackIndex = i := by
    intro g hg
    obtain ⟨g', -, rfl⟩ := List.mem_map.mp hg
    rfl
  have hnext := @Playing.move mux mux c _ written pend i r hp ha hi _ [] _ none rfl rfl
    (fun _ _ => rfl) hput hindex (fun g hg => absurd hg List.not_mem_nil) hrests
    (by rw [hcc]; exact ht'.cc) (by simp)
  rw [List.append_nil] at hnext
  exact ⟨_, _, hput, hnext⟩

def flushCell (mem : Memory) (c : Core) (i : ℕ) : Core :=
  match c.tracks[i]? with
  | some t => (auFlush mem c t).1.putTrack (auFlush mem c t).2
  | none => c

theorem flush_eq (mem : Memory) (c : Core) :
    flush mem c = (List.range c.tracks.length).foldl (flushCell mem) c := rfl

theorem Playing.flushes (hp : Playing mux written pend c) (hm : Plenty mem) (ha : Airs mux)
    (n : ℕ) (hn : n ≤ (programme mux).length) :
    ∃ pend', (∀ i < n, pend' i = none) ∧
      errors ((List.range n).foldl (flushCell mem) c).stats = errors c.stats ∧
      Playing mux written pend' ((List.range n).foldl (flushCell mem) c) := by
  induction n with
  | zero => exact ⟨pend, fun i hi => absurd hi (Nat.not_lt_zero i), rfl, hp⟩
  | succ n ih =>
    obtain ⟨pend', hnone, herrors, hplay⟩ := ih (by omega)
    rw [List.range_succ, List.foldl_append, List.foldl_cons, List.foldl_nil]
    have hlt : n < (programme mux).length := hn
    have hr : (programme mux)[n]? = some (programme mux)[n] := List.getElem?_eq_getElem hlt
    obtain ⟨t, ht⟩ := hplay.cell n _ hr
    obtain ⟨fs, u, hemit, hnext⟩ := hplay.flushed hm ha hr ht.held
    have hstep : flushCell mem ((List.range n).foldl (flushCell mem) c) n =
        (auFlush mem ((List.range n).foldl (flushCell mem) c) t).1.putTrack
          (auFlush mem ((List.range n).foldl (flushCell mem) c) t).2 := by
      rw [flushCell, ht.held]
    rw [hstep]
    refine ⟨_, ?_, hemit.errors.trans herrors, hnext⟩
    intro i hi
    by_cases hin : i = n
    · rw [hin, Function.update_self]
    · rw [Function.update_of_ne hin]
      exact hnone i (by omega)

structure Linked (maxAu : ℕ) (mux : Mux) (written : List Frame) (room : Prop) (c : Core) :
    Prop where
  airs : Airs mux
  patCc : Expects c.pat.cc mux.ccPat
  pmtCc : Expects c.pmt.cc mux.ccPmt
  tracks : (programme mux).length ≤ c.maxTracks
  maxAuBytes : c.maxAuBytes = maxAu
  errors : errors c.stats = 0
  stage : (¬ room ∧ c.tracks = [] ∧ written = [] ∧ media c.out = []) ∨
    ∃ pend, Playing mux written pend c

variable {maxAu : ℕ} {room room' : Prop}

theorem Playing.same (hp : Playing mux written pend c) (hconf : mux'.conf = mux.conf)
    (hsame : programme mux' = programme mux) (hcc : ∀ k, mux'.ccOf k = mux.ccOf k) :
    Playing mux' written pend c := by
  refine ⟨?_, ?_, ?_, ?_⟩
  · rw [hconf]
    exact hp.table
  · rw [hsame]
    exact hp.cells
  · rw [hsame]
    exact hp.indexed
  · rw [hsame]
    intro i r hi
    obtain ⟨t, ht⟩ := hp.cell i r hi
    refine ⟨t, ht.held, ht.rests, ?_, ht.frames⟩
    rw [hcc]
    exact ht.cc

theorem Linked.same (h : Linked maxAu mux written room c) (hs : SameOutput mux mux')
    (hroom : room' → room) : Linked maxAu mux' written room' c := by
  refine ⟨airs_congr h.airs hs.conf hs.videoStreamType hs.audioStreamType hs.tracksReady, ?_, ?_,
    ?_, h.maxAuBytes, h.errors, ?_⟩
  · rw [hs.ccPat]
    exact h.patCc
  · rw [hs.ccPmt]
    exact h.pmtCc
  · rw [programme_congr hs.conf hs.videoStreamType hs.audioStreamType]
    exact h.tracks
  · rcases h.stage with ⟨hno, hsilent⟩ | ⟨pend, hp⟩
    · exact Or.inl ⟨fun hr => hno (hroom hr), hsilent⟩
    · refine Or.inr ⟨pend, hp.same hs.conf
        (programme_congr hs.conf hs.videoStreamType hs.audioStreamType) fun k => ?_⟩
      simp only [Mux.ccOf, hs.ccAudio, hs.ccVideo]

theorem Playing.reads {v : View} (hp : Playing mux written pend c) (hr : Reads c v c')
    (htable : v.pmtPid = some mux.conf.pmtPid) (htracks : v.tracks = c.tracks) :
    Playing mux written pend c' := by
  have hcells : c'.tracks = c.tracks := (congrArg View.tracks hr.view).trans htracks
  refine ⟨(congrArg View.pmtPid hr.view).trans htable, ?_, ?_, ?_⟩
  · rw [hcells]
    exact hp.cells
  · rw [hr.media]
    exact hp.indexed
  · intro i r hi
    obtain ⟨t, ht⟩ := hp.cell i r hi
    refine ⟨t, ?_, ?_, ht.cc, ?_⟩
    · rw [hcells]
      exact ht.held
    · rw [hr.maxAuBytes]
      exact ht.rests
    · rw [hr.media]
      exact ht.frames

theorem Linked.pat (h : Linked maxAu mux written room c) (mem : Memory) :
    Linked maxAu { mux with ccPat := (mux.ccPat + 1) % 16 } written False
        (processPacket mem c (patPacket mux)) ∧
      (view (processPacket mem c (patPacket mux))).pmtPid = some mux.conf.pmtPid := by
  have hread := pat_packet mem c h.airs h.patCc
  have hview := hread.view
  have hpat : (processPacket mem c (patPacket mux)).pat.cc = some (mux.ccPat % 16) :=
    congrArg View.patCc hview
  have hpmt : (processPacket mem c (patPacket mux)).pmt.cc = c.pmt.cc :=
    congrArg View.pmtCc hview
  refine ⟨⟨airs_congr h.airs rfl rfl rfl rfl, ?_, ?_, ?_, ?_, ?_, ?_⟩, congrArg View.pmtPid hview⟩
  · rw [hpat]
    exact (expects_next mux.ccPat).of_mod (Nat.mod_mod _ _)
  · rw [hpmt]
    exact h.pmtCc
  · rw [hread.maxTracks]
    exact h.tracks
  · rw [hread.maxAuBytes]
    exact h.maxAuBytes
  · rw [hread.errors]
    exact h.errors
  · rcases h.stage with ⟨-, htracks, hwritten, hmedia⟩ | ⟨pend, hp⟩
    · refine Or.inl ⟨id, ?_, hwritten, hread.media.trans hmedia⟩
      exact (congrArg View.tracks hview).trans htracks
    · exact Or.inr ⟨pend, (hp.reads hread rfl rfl).same rfl rfl fun _ => rfl⟩

theorem Playing.fresh {v : View} (hr : Reads c v c') (htable : v.pmtPid = some mux.conf.pmtPid)
    (htracks : v.tracks = (programme mux).mapIdx fun i r => EsTrack.new i r.1 r.2)
    (hmedia : media c.out = []) : Playing mux [] (fun _ => none) c' := by
  have hcells : c'.tracks = (programme mux).mapIdx fun i r => EsTrack.new i r.1 r.2 :=
    (congrArg View.tracks hr.view).trans htracks
  have hnothing : media c'.out = [] := hr.media.trans hmedia
  refine ⟨(congrArg View.pmtPid hr.view).trans htable, ?_, ?_, ?_⟩
  · rw [hcells, List.length_mapIdx]
  · rw [hnothing]
    exact fun f hf => absurd hf List.not_mem_nil
  · intro i r hi
    refine ⟨EsTrack.new i r.1 r.2, ?_, ?_, ?_, ?_⟩
    · rw [hcells, List.getElem?_mapIdx, hi]
      rfl
    · exact ⟨⟨rfl, rfl, rfl, rfl, rfl⟩, rfl, rfl, rfl⟩
    · intro old hold
      contradiction
    · rw [hnothing]
      rfl

theorem Linked.pmt (h : Linked maxAu mux written room c) (hm : Plenty mem)
    (hpat : (view c).pmtPid = some mux.conf.pmtPid) :
    Linked maxAu { mux with ccPmt := (mux.ccPmt + 1) % 16 } written True
      (processPacket mem c (pmtPacket mux)) := by
  have hread := pmt_packet hm h.airs h.pmtCc hpat h.tracks
  have hview := hread.view
  have hpatCc : (processPacket mem c (pmtPacket mux)).pat.cc = c.pat.cc :=
    congrArg View.patCc hview
  have hpmtCc : (processPacket mem c (pmtPacket mux)).pmt.cc = some (mux.ccPmt % 16) :=
    congrArg View.pmtCc hview
  refine ⟨airs_congr h.airs rfl rfl rfl rfl, ?_, ?_, ?_, ?_, ?_, Or.inr ?_⟩
  · rw [hpatCc]
    exact h.patCc
  · rw [hpmtCc]
    exact (expects_next mux.ccPmt).of_mod (Nat.mod_mod _ _)
  · rw [hread.maxTracks]
    exact h.tracks
  · rw [hread.maxAuBytes]
    exact h.maxAuBytes
  · rw [hread.errors]
    exact h.errors
  · rcases h.stage with ⟨-, htracks, rfl, hmedia⟩ | ⟨pend, hp⟩
    · have hnew : programmeTracks mux c.tracks =
          (programme mux).mapIdx fun i r => EsTrack.new i r.1 r.2 := by
        rw [programmeTracks, htracks, List.map_nil]
        split_ifs with hnil
        · rw [hnil, List.mapIdx_nil]
        · rfl
      exact ⟨_, (Playing.fresh hread hpat hnew hmedia).same rfl rfl fun _ => rfl⟩
    · have hkept : programmeTracks mux c.tracks = c.tracks := by
        rw [programmeTracks, if_pos]
        apply List.ext_getElem?
        intro i
        rw [List.getElem?_map]
        cases hi : (programme mux)[i]? with
        | none =>
          have hlen := List.getElem?_eq_none_iff.mp hi
          rw [← hp.cells] at hlen
          rw [List.getElem?_eq_none_iff.mpr hlen]
          rfl
        | some r =>
          obtain ⟨t, ht⟩ := hp.cell i r hi
          rw [ht.held, Option.map_some, ht.rests.plays.pid, ht.rests.plays.streamType]
      exact ⟨pend, (hp.reads hread hpat hkept).same rfl rfl fun _ => rfl⟩

theorem Linked.frame (h : Linked maxAu mux written room c) (hm : Plenty mem) (hroom : room)
    (hr : r ∈ programme mux) (he : Elementary maxAu r.2 f data) {pcr : Bool}
    {burst burst' : Burst} {packets : List (List UInt8)}
    (hpackets : packets = pesPackets (mux.pidOf f.mediaType) f.dts (mux.ccOf f.mediaType) true pcr
      (pesHeader f data.length ++ data)) (hw : Wrote mux burst f packets mux' burst') :
    Linked maxAu mux' (written ++ [f]) True (packets.foldl (processPacket mem) c) := by
  rcases h.stage with ⟨hno, -⟩ | ⟨pend, hp⟩
  · exact absurd hroom hno
  · obtain ⟨i, hi⟩ := List.mem_iff_getElem?.mp hr
    obtain ⟨fs, u, pend', hemit, hplay⟩ := hp.frame hm h.airs hi
      (by rw [h.maxAuBytes]; exact he) hpackets hw
    refine ⟨airs_congr h.airs hw.conf hw.videoStreamType hw.audioStreamType hw.tracksReady, ?_,
      ?_, ?_, hemit.maxAuBytes.trans h.maxAuBytes, hemit.errors.trans h.errors,
      Or.inr ⟨pend', hplay⟩⟩
    · rw [hemit.pat, hw.ccPat]
      exact h.patCc
    · rw [hemit.pmt, hw.ccPmt]
      exact h.pmtCc
    · rw [hemit.maxTracks, programme_congr hw.conf hw.videoStreamType hw.audioStreamType]
      exact h.tracks

theorem packet_whole {payload : List UInt8} {withPcr : Bool} (h : Loads payload withPcr)
    (pid cc : ℕ) (pusi : Bool) (pcrBase : ℤ) :
    (packet pid cc pusi payload withPcr pcrBase).length = packetSize ∧
      (packet pid cc pusi payload withPcr pcrBase).head? = some syncByte :=
  ⟨packet_length pid cc pusi pcrBase h, rfl⟩

theorem pesPackets_whole (pid : ℕ) (dts : ℤ) (cc : ℕ) (first pcr : Bool) (pes : List UInt8) :
    ∀ p ∈ pesPackets pid dts cc first pcr pes,
      p.length = packetSize ∧ p.head? = some syncByte := by
  induction cc, first, pes using pesPackets.induct pcr with
  | case1 cc first =>
    rw [pesPackets_nil]
    exact fun p hp => absurd hp List.not_mem_nil
  | case2 cc first pes hne ih =>
    rw [pesPackets_cons pid dts cc first pcr hne]
    intro p hp
    rcases List.mem_cons.mp hp with rfl | hp
    · exact packet_whole (take_loads pes (first && pcr)) _ _ _ _
    · exact ih p hp

theorem tables_whole (mux : Mux) :
    ∀ p ∈ [patPacket mux, pmtPacket mux], p.length = packetSize ∧ p.head? = some syncByte := by
  intro p hp
  rcases List.mem_cons.mp hp with rfl | hp
  · exact packet_whole (sectionPayload_loads (muxPat_section mux)) _ _ _ _
  · obtain rfl := List.mem_singleton.mp hp
    exact packet_whole (sectionPayload_loads (muxPmt_section mux)) _ _ _ _

def Session.HasRoom (s : Session) : Prop :=
  ∃ burst, s.current = some burst ∧ burst.bytes.length + packetBytes ≤ burst.capacity

structure Carries (mem : Memory) (core : Core) (maxAu : ℕ) (streams : List (ℕ × ℕ))
    (s : Session) (packets : List (List UInt8)) : Prop where
  stream : s.stream = packets.flatten
  whole : ∀ p ∈ packets, p.length = packetSize ∧ p.head? = some syncByte
  streams : programme s.mux = streams
  linked : Linked maxAu s.mux s.written s.HasRoom (packets.foldl (processPacket mem) core)

def Offers (maxAu : ℕ) (streams : List (ℕ × ℕ)) : Call → Prop
  | .burst _ _ => True
  | .frame f _ => ∃ r ∈ streams, ∃ data, Elementary maxAu r.2 f data

variable {core : Core} {streams : List (ℕ × ℕ)} {s : Session} {packets : List (List UInt8)}

theorem Carries.endBurst (h : Carries mem core maxAu streams s packets) :
    Carries mem core maxAu streams s.endBurst packets ∧ s.endBurst.current = none := by
  unfold Session.endBurst
  cases hc : s.current with
  | none => exact ⟨h, hc⟩
  | some burst =>
    have hstream := h.stream
    rw [Session.stream, hc] at hstream
    refine ⟨⟨hstream, h.whole, h.streams, ?_⟩, rfl⟩
    refine h.linked.same ⟨rfl, rfl, rfl, rfl, rfl, rfl, rfl, rfl⟩ ?_
    rintro ⟨burst', hnone, -⟩
    contradiction

theorem Linked.opened (h : Linked maxAu mux written room c) (hm : Plenty mem) {burst : Burst}
    (ho : Opened mux mux' burst packets) :
    Linked maxAu mux' written (burst.bytes.length + packetBytes ≤ burst.capacity)
      (packets.foldl (processPacket mem) c) := by
  cases ho with
  | empty hs hbytes hfull =>
    rcases h.stage with ⟨-, hsilent⟩ | hplay
    · have hclosed : Linked maxAu mux written False c :=
        ⟨h.airs, h.patCc, h.pmtCc, h.tracks, h.maxAuBytes, h.errors, Or.inl ⟨id, hsilent⟩⟩
      exact hclosed.same hs fun hroom => absurd hroom (by omega)
    · have hopen : Linked maxAu mux written True c :=
        ⟨h.airs, h.patCc, h.pmtCc, h.tracks, h.maxAuBytes, h.errors, Or.inr hplay⟩
      exact hopen.same hs fun _ => trivial
  | pat hs hbytes hfull => exact (h.pat mem).1.same hs fun hroom => absurd hroom (by omega)
  | tables hs hbytes =>
    obtain ⟨hpat, htable⟩ := h.pat mem
    exact (hpat.pmt hm htable).same hs fun _ => trivial

theorem Opened.whole {burst : Burst} (ho : Opened mux mux' burst packets) :
    burst.bytes = packets.flatten ∧
      (∀ p ∈ packets, p.length = packetSize ∧ p.head? = some syncByte) ∧
      programme mux' = programme mux := by
  cases ho with
  | empty hs hbytes hfull =>
    exact ⟨hbytes, fun p hp => absurd hp List.not_mem_nil,
      programme_congr hs.conf hs.videoStreamType hs.audioStreamType⟩
  | pat hs hbytes hfull =>
    refine ⟨hbytes, fun p hp => tables_whole mux p ?_,
      programme_congr hs.conf hs.videoStreamType hs.audioStreamType⟩
    rw [List.mem_singleton.mp hp]
    exact List.mem_cons_self
  | tables hs hbytes =>
    exact ⟨hbytes, tables_whole mux,
      programme_congr hs.conf hs.videoStreamType hs.audioStreamType⟩

theorem step_burst {capacity : ℕ} {allocs : Bool} {opened : Option Burst}
    (h : burstInit s.endBurst.mux capacity allocs = (mux', opened)) :
    step s (.burst capacity allocs) = { s.endBurst with mux := mux', current := opened } := by
  simp only [step, h]

theorem step_frame {pcr : Bool} {burst burst' : Burst} {rc : Rc} (hc : s.current = some burst)
    (h : writeFrame s.mux burst f pcr = (rc, mux', burst')) :
    step s (.frame f pcr) = { s with
      mux := mux'
      current := some burst'
      written := if rc = .ok then s.written ++ [f] else s.written } := by
  simp only [step, hc, h]

theorem burstInit_failed (mux : Mux) (capacity : ℕ) :
    burstInit mux capacity false = (mux, none) := by
  simp [burstInit]

theorem burstInit_some (mux : Mux) (capacity : ℕ) :
    ∃ mux' burst, burstInit mux capacity true = (mux', some burst) := by
  unfold burstInit
  dsimp only
  rw [if_neg (by simp)]
  by_cases hready : mux.tracksReady = false
  · rw [if_pos hready]
    exact ⟨_, _, rfl⟩
  · rw [if_neg hready]
    exact ⟨_, _, rfl⟩

theorem carries_burst (hm : Plenty mem) (h : Carries mem core maxAu streams s packets)
    (capacity : ℕ) (allocs : Bool) :
    ∃ more, Carries mem core maxAu streams (step s (.burst capacity allocs)) (packets ++ more) := by
  obtain ⟨hend, hnone⟩ := h.endBurst
  have hstream := hend.stream
  rw [Session.stream, hnone] at hstream
  cases allocs with
  | false =>
    refine ⟨[], ?_⟩
    rw [List.append_nil, step_burst (burstInit_failed _ capacity)]
    refine ⟨hstream, h.whole, hend.streams, hend.linked.same (SameOutput.refl _) ?_⟩
    rintro ⟨burst, hsome, -⟩
    contradiction
  | true =>
    obtain ⟨mux', burst, hinit⟩ := burstInit_some s.endBurst.mux capacity
    obtain ⟨more, ho⟩ := burstInit_opened hend.linked.airs.ready hinit
    obtain ⟨hbytes, hwhole, hsame⟩ := Opened.whole ho
    rw [step_burst hinit]
    refine ⟨more, ?_, ?_, hsame.trans hend.streams, ?_⟩
    · rw [List.flatten_append, ← hstream, ← hbytes]
      rfl
    · intro p hp
      rcases List.mem_append.mp hp with hp | hp
      · exact h.whole p hp
      · exact hwhole p hp
    · rw [List.foldl_append]
      refine (hend.linked.opened hm ho).same (SameOutput.refl _) ?_
      rintro ⟨burst', hsome, hroom⟩
      obtain rfl := Option.some.inj hsome
      exact hroom

theorem carries_frame (hm : Plenty mem) (h : Carries mem core maxAu streams s packets)
    (pcr : Bool) (hr : r ∈ streams) (he : Elementary maxAu r.2 f data) :
    ∃ more, Carries mem core maxAu streams (step s (.frame f pcr)) (packets ++ more) := by
  cases hc : s.current with
  | none =>
    refine ⟨[], ?_⟩
    have hstep : step s (.frame f pcr) = s := by simp only [step, hc]
    rw [hstep, List.append_nil]
    exact h
  | some burst =>
    have hstream := h.stream
    rw [Session.stream, hc] at hstream
    cases hw : writeFrame s.mux burst f pcr with
    | mk rc rest =>
      obtain ⟨mux', burst'⟩ := rest
      rw [step_frame hc hw]
      rcases writeFrame_spec h.linked.airs.ready he.payload hw with
        ⟨rfl, hwrote⟩ | ⟨rfl, rfl, hsame⟩
      · have hsame := programme_congr hwrote.conf hwrote.videoStreamType hwrote.audioStreamType
        refine ⟨pesPackets (s.mux.pidOf f.mediaType) f.dts (s.mux.ccOf f.mediaType) true pcr
          (pesHeader f data.length ++ data), ?_, ?_, hsame.trans h.streams, ?_⟩
        · rw [List.flatten_append, ← hstream, List.append_assoc, ← hwrote.bytes]
          rfl
        · intro p hp
          rcases List.mem_append.mp hp with hp | hp
          · exact h.whole p hp
          · exact pesPackets_whole _ _ _ _ _ _ p hp
        · rw [List.foldl_append, if_pos rfl]
          exact (h.linked.frame hm ⟨burst, hc, hwrote.room⟩ (by rw [h.streams]; exact hr) he rfl
            hwrote).same (SameOutput.refl _) fun _ => trivial
      · refine ⟨[], ?_⟩
        rw [List.append_nil, if_neg (by decide)]
        refine ⟨hstream, h.whole, ?_, h.linked.same hsame ?_⟩
        · rw [programme_congr hsame.conf hsame.videoStreamType hsame.audioStreamType]
          exact h.streams
        · rintro ⟨burst', hsome, hroom⟩
          obtain rfl := Option.some.inj hsome
          exact ⟨burst', hc, hroom⟩

theorem carries_step (hm : Plenty mem) (h : Carries mem core maxAu streams s packets)
    {call : Call} (ho : Offers maxAu streams call) :
    ∃ more, Carries mem core maxAu streams (step s call) (packets ++ more) := by
  cases call with
  | burst capacity allocs => exact carries_burst hm h capacity allocs
  | frame f pcr =>
    obtain ⟨r, hr, data, he⟩ := ho
    exact carries_frame hm h pcr hr he

theorem carries_start (ha : Airs mux) {maxTracks maxAuBytes : ℕ}
    (hroom : (programme mux).length ≤ (Core.init maxTracks maxAuBytes).maxTracks) :
    Carries mem (Core.init maxTracks maxAuBytes) (Core.init maxTracks maxAuBytes).maxAuBytes
      (programme mux) (Session.start mux) [] := by
  refine ⟨rfl, fun p hp => absurd hp List.not_mem_nil, rfl, ha, ?_, ?_, hroom, rfl, rfl,
    Or.inl ⟨?_, rfl, rfl, rfl⟩⟩
  · intro old hold
    contradiction
  · intro old hold
    contradiction
  · rintro ⟨burst, hnone, -⟩
    contradiction

theorem carries_run (hm : Plenty mem) (ha : Airs mux) {maxTracks maxAuBytes : ℕ}
    (hroom : (programme mux).length ≤ (Core.init maxTracks maxAuBytes).maxTracks)
    {calls : List Call} (hcalls : ∀ call ∈ calls,
      Offers (Core.init maxTracks maxAuBytes).maxAuBytes (programme mux) call) :
    ∃ packets, Carries mem (Core.init maxTracks maxAuBytes)
      (Core.init maxTracks maxAuBytes).maxAuBytes (programme mux)
      (calls.foldl step (Session.start mux)) packets := by
  have hmeets : StepRun.Meets step
      (fun _ call => Offers (Core.init maxTracks maxAuBytes).maxAuBytes (programme mux) call)
      (Session.start mux) calls := StepRun.meets_of_forall hcalls _
  refine @StepRun.invariant_of_meets _ _ step _ (fun s => ∃ packets, Carries mem
    (Core.init maxTracks maxAuBytes) (Core.init maxTracks maxAuBytes).maxAuBytes (programme mux)
    s packets) ?_ _ ⟨[], carries_start ha hroom⟩ calls hmeets
  intro s call hs ho
  obtain ⟨packets, h⟩ := hs
  obtain ⟨more, hnext⟩ := carries_step hm h ho
  exact ⟨_, hnext⟩

structure Delivers (written : List Frame) (streams : List (ℕ × ℕ)) (out : List Frame) : Prop where
  each : ∀ i r, streams[i]? = some r → out.filter (fun f => f.trackIndex = i) =
    (written.filter fun f => f.mediaType = kind r.2).map (received r.2 i)
  only : ∀ f ∈ out, f.trackIndex < streams.length

theorem linked_flush (h : Linked maxAu mux written room c) (hm : Plenty mem) :
    Delivers written (programme mux) (media (flush mem c).out) ∧
      errors (flush mem c).stats = 0 := by
  rw [flush_eq]
  rcases h.stage with ⟨-, htracks, rfl, hmedia⟩ | ⟨pend, hp⟩
  · rw [htracks, List.length_nil, List.range_zero, List.foldl_nil, hmedia]
    exact ⟨⟨fun i r hi => rfl, fun f hf => absurd hf List.not_mem_nil⟩, h.errors⟩
  · obtain ⟨pend', hnone, herrors, hplay⟩ := hp.flushes hm h.airs (programme mux).length
      (Nat.le_refl _)
    rw [hp.cells]
    refine ⟨⟨?_, hplay.indexed⟩, herrors.trans h.errors⟩
    intro i r hi
    obtain ⟨t, ht⟩ := hplay.cell i r hi
    have hframes := ht.frames
    rw [hnone i (List.getElem?_eq_some_iff.mp hi).1] at hframes
    rw [← hframes]
    exact (List.append_nil _).symm

/-- Whatever frames of its programme a muxer has written, to whatever bursts, come out of a
new demultiplexer that is fed the stream in whatever pieces, and no error is counted. -/
theorem round_trip (hm : Plenty mem) (ha : Airs mux) {maxTracks maxAuBytes : ℕ}
    (hroom : (programme mux).length ≤ (Core.init maxTracks maxAuBytes).maxTracks)
    {calls : List Call} (hcalls : ∀ call ∈ calls,
      Offers (Core.init maxTracks maxAuBytes).maxAuBytes (programme mux) call)
    {chunks : List (List UInt8)}
    (hchunks : chunks.flatten = (calls.foldl step (Session.start mux)).stream) :
    Delivers (calls.foldl step (Session.start mux)).written (programme mux)
        (media (flush mem (chunks.foldl (feed mem) (Demux.init maxTracks maxAuBytes)).core).out) ∧
      errors (flush mem
        (chunks.foldl (feed mem) (Demux.init maxTracks maxAuBytes)).core).stats = 0 ∧
      (chunks.foldl (feed mem) (Demux.init maxTracks maxAuBytes)).syncErrors = 0 ∧
      (chunks.foldl (feed mem) (Demux.init maxTracks maxAuBytes)).skippedBytes = 0 := by
  obtain ⟨packets, hc⟩ := @carries_run mem mux hm ha maxTracks maxAuBytes hroom calls hcalls
  have hfed := @TsFeed.feed_packets mem (Demux.init maxTracks maxAuBytes) rfl packets chunks
    hc.whole (hchunks.trans hc.stream)
  obtain ⟨hdelivers, herrors⟩ := linked_flush hc.linked hm
  rw [hc.streams] at hdelivers
  rw [hfed]
  exact ⟨hdelivers, herrors, rfl, rfl⟩

def enough : Memory := ⟨true, fun _ => true⟩

def pairTracks : TrackSet :=
  [⟨.video, .h264, .annexb, 0, 0, 0, 0, 0, 0, 0, 0, none⟩,
    ⟨.audio, .aac, .adts, 0, 0, 0, 0, 0, 0, 0, 0, none⟩]

def pairMux : Mux := (setTracks (muxInit confDefault) pairTracks).1

theorem pairMux_airs : Airs pairMux :=
  @setTracks_airs confDefault pairTracks _ confDefault_ownPids rfl

def videoFrame (dts : ℤ) : Frame :=
  { mediaType := .video
    codec := .h264
    payloadFormat := .annexb
    trackIndex := 0
    pts := dts + 3000
    dts := dts
    keyframe := true
    config := false
    payload := some [0, 0, 0, 1, 0x65, 0x88] }

def audioFrame (payload : Payload) : Frame :=
  { mediaType := .audio
    codec := .aac
    payloadFormat := .adts
    trackIndex := 1
    pts := 2 ^ 33 + 5
    dts := 2 ^ 33 + 5
    keyframe := true
    config := false
    payload := some payload }

theorem videoFrame_offered (dts : ℤ) (pcr : Bool) :
    Offers (Core.init 0 0).maxAuBytes (programme pairMux) (.frame (videoFrame dts) pcr) := by
  refine ⟨(0x1011, streamH264), by decide, _, rfl, rfl, by decide, by decide, ?_, ?_⟩
  · intro _
    exact ⟨by decide +kernel, by decide +kernel⟩
  · intro hk
    exact absurd hk (by decide)

theorem audioFrame_offered (pcr : Bool) :
    Offers (Core.init 0 0).maxAuBytes (programme pairMux)
      (.frame (audioFrame [0xFF, 0xF1, 0x50, 0x80, 0x01, 0x3F, 0xFC, 0x21, 0x10]) pcr) := by
  refine ⟨(0x1100, streamAacAdts), by decide, _, rfl, rfl, by decide, by decide, ?_, ?_⟩
  · intro hk
    exact absurd hk (by decide)
  · intro _
    exact ⟨⟨9, 7, 2, 44100, 2⟩, by decide, rfl⟩

/-- Two access units around an AAC frame, in two bursts, fed in two pieces. -/
def pairCalls : List Call :=
  [.burst 0 true, .frame (videoFrame 0) true,
    .frame (audioFrame [0xFF, 0xF1, 0x50, 0x80, 0x01, 0x3F, 0xFC, 0x21, 0x10]) false,
    .burst 2000 true, .frame (videoFrame 3003) false]

theorem pairCalls_offered :
    ∀ call ∈ pairCalls, Offers (Core.init 0 0).maxAuBytes (programme pairMux) call := by
  intro call hcall
  simp only [pairCalls, List.mem_cons, List.not_mem_nil, or_false] at hcall
  rcases hcall with rfl | rfl | rfl | rfl | rfl
  · trivial
  · exact videoFrame_offered 0 true
  · exact audioFrame_offered false
  · trivial
  · exact videoFrame_offered 3003 false

theorem round_trip_pair :
    (pairCalls.foldl step (Session.start pairMux)).written.length = 3 ∧
      Delivers (pairCalls.foldl step (Session.start pairMux)).written (programme pairMux)
        (media (flush enough ([(pairCalls.foldl step (Session.start pairMux)).stream.take 300,
          (pairCalls.foldl step (Session.start pairMux)).stream.drop 300].foldl (feed enough)
            (Demux.init 0 0)).core).out) :=
  ⟨by decide +kernel,
    (@round_trip enough pairMux ⟨rfl, fun _ => rfl⟩ pairMux_airs 0 0 (by decide) pairCalls
      pairCalls_offered _ (by simp)).1⟩

/-- A raw AAC frame is written as it is, and the demultiplexer finds no ADTS frame in it. -/
theorem raw_aac_lost :
    ([.burst 0 true, .frame (audioFrame [0x21, 0x10, 0x04, 0x60, 0x8C, 0x1C, 0x00, 0x00])
        false].foldl step (Session.start pairMux)).written.length = 1 ∧
      media (flush enough (feed enough (Demux.init 0 0)
        ([.burst 0 true, .frame (audioFrame [0x21, 0x10, 0x04, 0x60, 0x8C, 0x1C, 0x00, 0x00])
          false].foldl step (Session.start pairMux)).stream).core).out = [] ∧
      (flush enough (feed enough (Demux.init 0 0)
        ([.burst 0 true, .frame (audioFrame [0x21, 0x10, 0x04, 0x60, 0x8C, 0x1C, 0x00, 0x00])
          false].foldl step (Session.start pairMux)).stream).core).stats.pesErrors = 1 := by
  decide +kernel

end TsRoundTrip

import NginxMedia.StreamSteady
import NginxMedia.TsRoundTrip

/-! Lip sync: how far program time is from source time while one source stays active. All its
tracks share one timeline. -/
namespace LipSync

open MediaTypes MediaTimeline MediaStream StreamMoves MediaProgram StreamSteady

/-- The distance of a unit's program time from its source time. -/
def shift (w : Write) : ℤ := w.slot.frame.dts - w.frame.dts

/-- One distance for all units. -/
def Aligned (ws : List Write) : Prop := ∀ w ∈ ws, ∀ u ∈ ws, shift w = shift u

instance (ws : List Write) : Decidable (Aligned ws) :=
  inferInstanceAs (Decidable (∀ w ∈ ws, ∀ u ∈ ws, shift w = shift u))

/-- Each frame is later than those before it, whatever tracks they are of. -/
def Advances (frames : List Frame) : Prop := frames.Pairwise fun f g => f.dts < g.dts

instance (frames : List Frame) : Decidable (Advances frames) :=
  inferInstanceAs (Decidable (frames.Pairwise _))

def TracksAdvance (frames : List Frame) : Prop :=
  frames.Pairwise fun f g => f.trackIndex = g.trackIndex → f.dts < g.dts

instance (frames : List Frame) : Decidable (TracksAdvance frames) :=
  inferInstanceAs (Decidable (frames.Pairwise _))

def ofSource (r : ℕ) (record : List (ℕ × Frame)) : List Frame :=
  record.filterMap fun entry => if entry.1 = r then some entry.2 else none

def sent (r : ℕ) : Program → List Call → List Frame
  | _, [] => []
  | p, call :: rest => ofSource r (accepted p call) ++ sent r (step p call) rest

def aired (p : Program) (calls : List Call) : List Write :=
  (run p calls).stream.writes.drop p.stream.writes.length

theorem map_after (t : Timeline) (pts dts : ℤ) :
    (map t pts dts).1.anchored = true ∧ (map t pts dts).1.hasProgram = true ∧
      (map t pts dts).1.offset = (map t pts dts).2.2 - dts ∧
      (map t pts dts).1.lastProgramDts = (map t pts dts).2.2 := by
  unfold map
  dsimp only
  split_ifs
  · exact ⟨rfl, rfl, by dsimp only; omega, rfl⟩
  · exact ⟨rfl, rfl, by dsimp only; omega, rfl⟩

theorem map_shift {t : Timeline} (ha : t.anchored = true) (hp : t.hasProgram = true)
    (pts dts : ℤ) :
    (map t pts dts).2.2 - dts = t.offset ↔ t.lastProgramDts < dts + t.offset := by
  have hanchor : anchor t dts = t.offset := by
    rw [anchor, if_pos ha]
  unfold map
  dsimp only
  rw [hanchor]
  by_cases hregress : dts + t.offset ≤ t.lastProgramDts
  · rw [if_pos ⟨hp, hregress⟩]
    dsimp only
    omega
  · rw [if_neg fun h => hregress h.2]
    dsimp only
    omega

structure Held (t : Timeline) (ws : List Write) : Prop where
  last : ∀ init w, ws = init ++ [w] → t.anchored = true ∧ t.hasProgram = true ∧
    t.offset = shift w ∧ t.lastProgramDts = w.slot.frame.dts
  even : Aligned ws ↔ Advances (ws.map Write.frame)

theorem held_nil (t : Timeline) : Held t [] := by
  constructor
  · intro init w h
    simp at h
  · constructor
    · intro _
      exact List.Pairwise.nil
    · intro _ w hw
      exact absurd hw List.not_mem_nil

theorem aligned_concat {ws : List Write} {w : Write} :
    Aligned (ws ++ [w]) ↔ Aligned ws ∧ ∀ u ∈ ws, shift u = shift w := by
  constructor
  · intro h
    refine ⟨fun a ha b hb => ?_, fun u hu => ?_⟩
    · exact h a (List.mem_append_left _ ha) b (List.mem_append_left _ hb)
    · exact h u (List.mem_append_left _ hu) w (List.mem_append_right _ List.mem_cons_self)
  · rintro ⟨hws, hw⟩ a ha b hb
    rcases List.mem_append.mp ha with ha | ha <;> rcases List.mem_append.mp hb with hb | hb
    · exact hws a ha b hb
    · rw [List.mem_singleton.mp hb]
      exact hw a ha
    · rw [List.mem_singleton.mp ha]
      exact (hw b hb).symm
    · rw [List.mem_singleton.mp ha, List.mem_singleton.mp hb]

theorem advances_concat {frames : List Frame} {f : Frame} :
    Advances (frames ++ [f]) ↔ Advances frames ∧ ∀ g ∈ frames, g.dts < f.dts := by
  unfold Advances
  rw [List.pairwise_append]
  simp

theorem Held.write {s : Stream} {ws : List Write} (h : Held s.timeline ws) (r : ℕ) (frame : Frame)
    (now : ℕ) :
    Held (map s.timeline frame.pts frame.dts).1 (ws ++ [written s r frame now]) := by
  obtain ⟨hanchored, hprogram, hoffset, hlast⟩ := map_after s.timeline frame.pts frame.dts
  constructor
  · intro init w hw
    obtain ⟨-, hw⟩ := List.append_inj' hw rfl
    obtain rfl := (List.cons.inj hw).1
    exact ⟨hanchored, hprogram, hoffset, hlast⟩
  · rw [aligned_concat, List.map_append, List.map_singleton, advances_concat, h.even]
    apply and_congr_right
    intro hadvances
    rcases List.eq_nil_or_concat' ws with rfl | ⟨init, w, rfl⟩
    · simp
    · obtain ⟨ha, hp, ho, hl⟩ := h.last init w rfl
      have haligned := h.even.mpr hadvances
      have hmap := map_shift ha hp frame.pts frame.dts
      rw [List.map_append, List.map_singleton, advances_concat] at hadvances
      -- the last unit stands for all: the others have its distance and are earlier
      have hstays : shift w = shift (written s r frame now) ↔ w.frame.dts < frame.dts := by
        have hnew : shift (written s r frame now) =
            (map s.timeline frame.pts frame.dts).2.2 - frame.dts := rfl
        rw [hnew, ← ho, eq_comm, hmap, hl, ho, shift]
        omega
      constructor
      · intro hall g hg
        have hw := hstays.mp (hall w (List.mem_append_right _ List.mem_cons_self))
        rw [List.map_append, List.map_singleton] at hg
        rcases List.mem_append.mp hg with hg | hg
        · exact (hadvances.2 g hg).trans hw
        · rw [List.mem_singleton.mp hg]
          exact hw
      · intro hall u hu
        have hw := hstays.mpr (hall w.frame (by simp))
        rw [← hw]
        exact haligned u hu w (List.mem_append_right _ List.mem_cons_self)

theorem step_held {p : Program} (hi : Inv p.stream) {r : ℕ} (ha : p.stream.active = some r)
    {ws : List Write} (h : Held p.stream.timeline ws) (call : Call)
    (hg : (step p call).stream.feed.generation = p.stream.feed.generation) :
    (step p call).stream.active = some r ∧ ∃ more,
      (step p call).stream.writes = p.stream.writes ++ more ∧
      more.map Write.frame = ofSource r (accepted p call) ∧
      Held (step p call).stream.timeline (ws ++ more) := by
  have hsome : p.stream.active ≠ none := by
    rw [ha]
    exact Option.some_ne_none r
  by_cases hcall : accepted p call = []
  · obtain ⟨hactive, htime, hwrites⟩ := (quiet_steady hi hcall).same hg hsome
    refine ⟨hactive.trans ha, [], ?_, ?_, ?_⟩
    · rw [hwrites, List.append_nil]
    · rw [hcall]
      rfl
    · rw [htime, List.append_nil]
      exact h
  · cases call with
    | publish q frame now =>
      have hu : usable p.stream q = true := by
        by_contra hu
        simp [accepted, hu] at hcall
      have hrecord : accepted p (.publish q frame now) = [(q, frame)] := by
        simp only [accepted, hu, if_true]
      rw [hrecord]
      by_cases hq : q = r
      · -- the active source: its frame is written, then nothing switches
        subst hq
        have hlive := Inv.liveFrame hi q frame now
        have hpublish := publish_live hu ((hi.state_iff q).mpr ha) frame now
        have hsteady := switchResolve_steady (liveFrame p.stream q frame now)
        rw [← hpublish] at hsteady
        obtain ⟨hactive, htime, hwrites⟩ := hsteady.same (hg.trans hlive.generation.symm)
          (by rw [hlive.active]; exact hsome)
        refine ⟨hactive.trans (hlive.active.trans ha), [written p.stream q frame now], ?_, ?_, ?_⟩
        · exact hwrites.trans hlive.writes
        · simp [ofSource, written]
        · rw [show (step p (.publish q frame now)).stream.timeline = _ from
            htime.trans hlive.timeline]
          exact h.write q frame now
      · have hidle := publish_idle hi hu (fun he => hq (Option.some.inj (he.symm.trans ha)))
          frame now
        obtain ⟨hactive, htime, hwrites⟩ := hidle.same hg hsome
        refine ⟨hactive.trans ha, [], ?_, ?_, ?_⟩
        · rw [List.append_nil]
          exact hwrites
        · simp [ofSource, hq]
        · rw [show (step p (.publish q frame now)).stream.timeline = _ from htime,
            List.append_nil]
          exact h
    | _ => exact absurd rfl hcall

theorem run_held {p : Program} (hi : Inv p.stream) {r : ℕ} (ha : p.stream.active = some r)
    {ws : List Write} (h : Held p.stream.timeline ws) (calls : List Call)
    (hg : (run p calls).stream.feed.generation = p.stream.feed.generation) :
    ∃ more, (run p calls).stream.writes = p.stream.writes ++ more ∧
      more.map Write.frame = sent r p calls ∧ Held (run p calls).stream.timeline (ws ++ more) := by
  induction calls generalizing p ws with
  | nil =>
    refine ⟨[], (List.append_nil _).symm, rfl, ?_⟩
    rw [List.append_nil]
    exact h
  | cons call rest ih =>
    obtain ⟨hnext, hlater⟩ := step_inv hi call
    have hrest := (run_later hnext rest).generation_le
    have hstep := hlater.generation_le
    have hrun : run p (call :: rest) = run (step p call) rest := rfl
    rw [hrun] at hg ⊢
    have hgen : (step p call).stream.feed.generation = p.stream.feed.generation := by omega
    obtain ⟨hactive, more, hwrites, hframes, hheld⟩ := step_held hi ha h call hgen
    obtain ⟨after, hwrites', hframes', hheld'⟩ := ih hnext hactive hheld (hg.trans hgen.symm)
    refine ⟨more ++ after, ?_, ?_, ?_⟩
    · rw [hwrites', hwrites, List.append_assoc]
    · rw [List.map_append, hframes, hframes', sent]
    · rw [← List.append_assoc]
      exact hheld'

def outputFrame : TsDemux.Output → Option Frame
  | .frame f => some f
  | .tracks _ => none

def Emitted (frames : List Frame) : Prop :=
  ∃ (mem : TsDemux.Memory) (maxTracks maxAuBytes : ℕ) (chunks : List (List UInt8)), frames <:+:
    (TsDemux.flush mem (chunks.foldl (TsDemux.feed mem)
      (TsDemux.Demux.init maxTracks maxAuBytes)).core).out.filterMap outputFrame

def accessUnit (dts : ℤ) : Frame := TsRoundTrip.videoFrame dts

def adtsAt (dts : ℤ) : Frame :=
  { TsRoundTrip.audioFrame [0xFF, 0xF1, 0x50, 0x80, 0x01, 0x3F, 0xFC, 0x21, 0x10] with
    pts := dts, dts := dts }

def interleaved : List UInt8 :=
  ([.burst 0 true, .frame (accessUnit 900) true, .frame (adtsAt 1800) false,
    .frame (accessUnit 4500) false].foldl TsRoundTrip.step
      (TsRoundTrip.Session.start TsRoundTrip.pairMux)).stream

def asc : Frame :=
  { adtsAt 1800 with dts := 0, config := true, payloadFormat := .raw, payload := some [18, 16] }

/-- A source becomes active with the audio configuration that the demultiplexer handed out. -/
def taken : List Call := [.sourceAdd [97] 1 1 true true, .promote 0, .publish 0 asc 10]

theorem interleaved_tracks_drift : ¬ ∀ (conf : MediaFeed.Conf) (feed : MediaFeed.Feed),
    MediaFeed.init conf true = some feed → ∀ (selector : SelectorConf) (before calls : List Call)
    (r : ℕ), (run (start feed selector) before).stream.active = some r →
    (run (run (start feed selector) before) calls).stream.feed.generation =
      (run (start feed selector) before).stream.feed.generation →
    Emitted (sent r (run (start feed selector) before) calls) →
    TracksAdvance (sent r (run (start feed selector) before) calls) →
    Aligned (aired (run (start feed selector) before) calls) := by
  intro h
  have haligned := h _ smallFeed smallFeed_init selectorAuto taken
    [.publish 0 (adtsAt 1800) 10, .publish 0 (accessUnit 900) 10, .publish 0 (accessUnit 4500) 20]
    0 (by decide +kernel) (by decide +kernel)
    ⟨TsRoundTrip.enough, 0, 0, [interleaved], [asc], [], by decide +kernel⟩ (by decide +kernel)
  exact absurd haligned (by decide +kernel)

/-- While a source stays active the program is what it publishes, at one distance from it
exactly when each frame is later than those before it, whatever their tracks. -/
theorem lip_sync {conf : MediaFeed.Conf} {allocated : Bool} {feed : MediaFeed.Feed}
    (hfeed : MediaFeed.init conf allocated = some feed) (selector : SelectorConf)
    (before calls : List Call) {r : ℕ}
    (hactive : (run (start feed selector) before).stream.active = some r)
    (hkept : (run (run (start feed selector) before) calls).stream.feed.generation =
      (run (start feed selector) before).stream.feed.generation) :
    (aired (run (start feed selector) before) calls).map Write.frame =
        sent r (run (start feed selector) before) calls ∧
      (Aligned (aired (run (start feed selector) before) calls) ↔
        Advances (sent r (run (start feed selector) before) calls)) := by
  obtain ⟨more, hwrites, hframes, hheld⟩ := run_held (run_inv (start_inv hfeed selector) before)
    hactive (held_nil _) calls hkept
  have haired : aired (run (start feed selector) before) calls = more := by
    rw [aired, hwrites, List.drop_left]
  rw [haired, ← hframes]
  exact ⟨rfl, hheld.even⟩

theorem lip_sync_in_order :
    Aligned (aired (run (start smallFeed selectorAuto) taken) [.publish 0 (accessUnit 900) 10,
      .publish 0 (adtsAt 1800) 10, .publish 0 (accessUnit 4500) 20]) :=
  (lip_sync smallFeed_init selectorAuto taken [.publish 0 (accessUnit 900) 10,
    .publish 0 (adtsAt 1800) 10, .publish 0 (accessUnit 4500) 20]
    (by decide +kernel : _ = some 0) (by decide +kernel)).2.mpr (by decide +kernel)

end LipSync

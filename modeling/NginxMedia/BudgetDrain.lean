import NginxMedia.OutputDrain

/-! A drain of a feed under the budget of a visit, as every consumer of the runtime does it: it
reads batches until the feed is empty or the budget is spent. What the consumer makes of the
frames is nothing to the budget. -/
namespace BudgetDrain

open MediaTypes OutputDrain

def drain (units bytes now : ℕ) :
    List ℕ → MediaFeed.Feed → MediaFeed.Cursor → Budget →
      MediaFeed.Feed × MediaFeed.Cursor × Budget
  | [], feed, cursor, budget => (feed, cursor, budget)
  | clock :: clocks, feed, cursor, budget =>
    match budgetReady budget clock with
    | (budget, false) => (feed, cursor, budget)
    | (budget, true) =>
      let maxUnits := min units (visitMaxFrames - budget.frames)
      let maxBytes := min bytes (visitMaxBytes - budget.bytes)
      if maxUnits = 0 ∨ maxBytes = 0 then (feed, cursor, { budget with exhausted := true })
      else
        let r := MediaFeed.read feed cursor maxUnits maxBytes now
        match r.status with
        | .batch => drain units bytes now clocks r.feed r.cursor (budgetAccount budget r.frames)
        | .empty => (r.feed, cursor, budget)
        | .overrun | .generationMismatch =>
          drain units bytes now clocks r.feed
            (MediaFeed.resync r.feed r.cursor MediaFeed.resyncKeyframe).1 budget

theorem outputsDrain_drain (p : Programme) (active : Active) (now : ℕ) (clocks : List ℕ)
    (budget : Budget) :
    ((outputsDrain active now clocks p budget).1.feed,
      (outputsDrain active now clocks p budget).1.out.cursor,
      (outputsDrain active now clocks p budget).2) =
      drain batchUnits batchBytes now clocks p.feed p.out.cursor budget := by
  induction clocks generalizing p budget with
  | nil => rfl
  | cons clock clocks ih =>
    unfold outputsDrain drain
    rcases budgetReady budget clock with ⟨budget, ready⟩
    cases ready with
    | false => rfl
    | true =>
      dsimp only
      by_cases hspent : min batchUnits (visitMaxFrames - budget.frames) = 0 ∨
          min batchBytes (visitMaxBytes - budget.bytes) = 0
      · rw [if_pos hspent, if_pos hspent]
      · rw [if_neg hspent, if_neg hspent]
        generalize hread : MediaFeed.read p.feed p.out.cursor
          (min batchUnits (visitMaxFrames - budget.frames))
          (min batchBytes (visitMaxBytes - budget.bytes)) now = r
        cases hstatus : r.status with
        | batch =>
          have hcursor := (putBatch_beside { p.out with cursor := r.cursor } active r.frames).cursor
          rw [takeTracks_place] at hcursor
          dsimp only at hcursor ⊢
          rw [ih]
          dsimp only
          rw [hcursor]
        | empty => rfl
        | overrun => exact ih _ _
        | generationMismatch => exact ih _ _

def framesFrom (feed : MediaFeed.Feed) (sequence : ℕ) : List Frame :=
  (List.range' sequence (feed.head - sequence)).map fun k => (feed.slots (feed.index k)).frame

def InPlace (feed : MediaFeed.Feed) (cursor : MediaFeed.Cursor) : Prop :=
  cursor.generation = feed.generation ∧ feed.tail ≤ cursor.nextSequence ∧
    cursor.nextSequence ≤ feed.head

instance (feed : MediaFeed.Feed) (cursor : MediaFeed.Cursor) : Decidable (InPlace feed cursor) :=
  inferInstanceAs (Decidable (_ ∧ _ ∧ _))

def place (feed : MediaFeed.Feed) (cursor : MediaFeed.Cursor) : MediaFeed.Cursor :=
  if InPlace feed cursor then cursor
  else (MediaFeed.resync feed cursor MediaFeed.resyncKeyframe).1

def waiting (feed : MediaFeed.Feed) (cursor : MediaFeed.Cursor) : List Frame :=
  framesFrom feed (place feed cursor).nextSequence

structure SameRing (feed feed' : MediaFeed.Feed) : Prop where
  slots : feed'.slots = feed.slots
  capacity : feed'.capacity = feed.capacity
  generation : feed'.generation = feed.generation
  head : feed'.head = feed.head
  tail : feed'.tail = feed.tail
  lastKeyframe : feed'.lastKeyframe = feed.lastKeyframe
  hasKeyframe : feed'.hasKeyframe = feed.hasKeyframe

variable {feed feed' : MediaFeed.Feed} {cursor : MediaFeed.Cursor} {budget : Budget}
variable {maxUnits maxBytes now clock t : ℕ}

theorem SameRing.trans {feed'' : MediaFeed.Feed} (h : SameRing feed feed')
    (h' : SameRing feed' feed'') : SameRing feed feed'' :=
  ⟨h'.slots.trans h.slots, h'.capacity.trans h.capacity, h'.generation.trans h.generation,
    h'.head.trans h.head, h'.tail.trans h.tail, h'.lastKeyframe.trans h.lastKeyframe,
    h'.hasKeyframe.trans h.hasKeyframe⟩

theorem SameRing.framesFrom (h : SameRing feed feed') (sequence : ℕ) :
    framesFrom feed' sequence = framesFrom feed sequence := by
  unfold BudgetDrain.framesFrom MediaFeed.Feed.index
  rw [h.slots, h.capacity, h.head]

theorem SameRing.inPlace (h : SameRing feed feed') (cursor : MediaFeed.Cursor) :
    InPlace feed' cursor ↔ InPlace feed cursor := by
  unfold InPlace
  rw [h.generation, h.head, h.tail]

theorem resync_keyframe (feed : MediaFeed.Feed) (cursor : MediaFeed.Cursor) :
    (MediaFeed.resync feed cursor MediaFeed.resyncKeyframe).1 =
      ⟨feed.generation,
        if MediaFeed.keyframeRetained feed then feed.lastKeyframe else feed.head⟩ := rfl

theorem SameRing.resync (h : SameRing feed feed') (cursor cursor' : MediaFeed.Cursor) :
    (MediaFeed.resync feed' cursor' MediaFeed.resyncKeyframe).1 =
      (MediaFeed.resync feed cursor MediaFeed.resyncKeyframe).1 := by
  rw [resync_keyframe, resync_keyframe]
  have hretained : MediaFeed.keyframeRetained feed' = MediaFeed.keyframeRetained feed := by
    unfold MediaFeed.keyframeRetained
    rw [h.hasKeyframe, h.lastKeyframe, h.head, h.tail]
  simp only [hretained, h.generation, h.head, h.lastKeyframe]

theorem SameRing.waiting (h : SameRing feed feed') (cursor : MediaFeed.Cursor) :
    waiting feed' cursor = waiting feed cursor := by
  have hplace : place feed' cursor = place feed cursor := by
    unfold place
    rw [h.resync cursor cursor]
    by_cases hin : InPlace feed cursor
    · rw [if_pos hin, if_pos ((h.inPlace cursor).mpr hin)]
    · rw [if_neg hin, if_neg (fun hin' => hin ((h.inPlace cursor).mp hin'))]
  unfold BudgetDrain.waiting
  rw [hplace, h.framesFrom]

theorem readLoop_frames (feed : MediaFeed.Feed) (maxUnits maxBytes now n sequence count bytes : ℕ)
    (hist : MediaFeed.Hist) (hn : sequence + n = feed.head) :
    ∃ m, m ≤ n ∧ (MediaFeed.readLoop feed maxUnits maxBytes now n sequence count bytes hist).1 =
        (framesFrom feed sequence).take m ∧
      (MediaFeed.readLoop feed maxUnits maxBytes now n sequence count bytes hist).2.1 =
        sequence + m ∧
      (0 < n → count = 0 → 0 < maxUnits → 0 < m) := by
  induction n generalizing sequence count bytes hist with
  | zero => exact ⟨0, Nat.le_refl _, rfl, rfl, fun h => absurd h (by omega)⟩
  | succ n ih =>
    unfold MediaFeed.readLoop
    by_cases hroom : count < maxUnits ∧ sequence < feed.head
    · rw [if_pos hroom]
      dsimp only
      by_cases hfull : count > 0 ∧ maxBytes ≠ 0 ∧
          bytes + (feed.slots (feed.index sequence)).size > maxBytes
      · rw [if_pos hfull]
        exact ⟨0, Nat.zero_le _, rfl, rfl, fun _ hcount => absurd hfull.1 (by omega)⟩
      · rw [if_neg hfull]
        obtain ⟨m, hm, hframes, hstop, _⟩ := ih (sequence + 1) (count + 1)
          (bytes + (feed.slots (feed.index sequence)).size)
          (if now ≥ (feed.slots (feed.index sequence)).publishTime then
            hist.record (now - (feed.slots (feed.index sequence)).publishTime) else hist) (by omega)
        refine ⟨m + 1, by omega, ?_, ?_, fun _ _ _ => Nat.succ_pos m⟩
        · rw [hframes]
          unfold framesFrom
          rw [show feed.head - sequence = (feed.head - (sequence + 1)) + 1 by omega,
            List.range'_succ, List.map_cons, List.take_succ_cons]
        · rw [hstop]
          omega
    · rw [if_neg hroom]
      exact ⟨0, Nat.zero_le _, rfl, rfl, fun _ _ _ => absurd ⟨by omega, by omega⟩ hroom⟩

structure Reads (feed : MediaFeed.Feed) (cursor : MediaFeed.Cursor) (maxUnits : ℕ)
    (r : MediaFeed.ReadResult) : Prop where
  ring : SameRing feed r.feed
  cases : (r.status = .empty ∧ (0 < maxUnits → framesFrom feed cursor.nextSequence = [])) ∨
    (r.status = .batch ∧ r.frames ≠ [] ∧ InPlace feed r.cursor ∧
      framesFrom feed cursor.nextSequence =
        r.frames ++ framesFrom feed r.cursor.nextSequence)

theorem framesFrom_drop (sequence m : ℕ) :
    (framesFrom feed sequence).drop m = framesFrom feed (sequence + m) := by
  unfold framesFrom
  rw [← List.map_drop, List.drop_range', Nat.mul_one, Nat.sub_sub]

theorem read_reads (h : InPlace feed cursor) (maxUnits maxBytes now : ℕ) :
    Reads feed cursor maxUnits (MediaFeed.read feed cursor maxUnits maxBytes now) := by
  obtain ⟨hgeneration, htail, hhead⟩ := h
  obtain ⟨m, hm, hframes, hstop, hfirst⟩ := readLoop_frames feed maxUnits maxBytes now
    (feed.head - cursor.nextSequence) cursor.nextSequence 0 0 feed.fanout (by omega)
  unfold MediaFeed.read
  rw [if_neg (by simp [hgeneration]), if_neg (by omega), if_neg (by omega)]
  dsimp only
  have hlength : (framesFrom feed cursor.nextSequence).length =
      feed.head - cursor.nextSequence := by
    simp [framesFrom]
  by_cases hnone : (MediaFeed.readLoop feed maxUnits maxBytes now
      (feed.head - cursor.nextSequence) cursor.nextSequence 0 0 feed.fanout).1 = []
  · rw [if_pos hnone]
    refine ⟨⟨rfl, rfl, rfl, rfl, rfl, rfl, rfl⟩, Or.inl ⟨rfl, fun hunits => ?_⟩⟩
    have htaken := congrArg List.length (hframes.symm.trans hnone)
    rw [List.length_take, List.length_nil, hlength] at htaken
    refine List.eq_nil_of_length_eq_zero ?_
    by_contra hsome
    have hpos := hfirst (by omega) rfl hunits
    omega
  · rw [if_neg hnone]
    refine ⟨⟨rfl, rfl, rfl, rfl, rfl, rfl, rfl⟩, Or.inr ⟨rfl, hnone, ⟨hgeneration, ?_, ?_⟩, ?_⟩⟩
    · dsimp only
      omega
    · dsimp only
      omega
    · dsimp only
      rw [hstop, hframes, ← framesFrom_drop, List.take_append_drop]

theorem budgetAccount_append (budget : Budget) (first rest : List Frame) :
    budgetAccount (budgetAccount budget first) rest = budgetAccount budget (first ++ rest) := by
  simp [budgetAccount, Nat.add_assoc]

@[simp] theorem budgetAccount_nil (budget : Budget) : budgetAccount budget [] = budget := rfl

def Ready (budget : Budget) (clock : ℕ) : Prop :=
  budget.frames < visitMaxFrames ∧ budget.bytes < visitMaxBytes ∧
    (budget.frames = 0 ∨ wrapSub clock budget.started < visitMaxMs)

instance (budget : Budget) (clock : ℕ) : Decidable (Ready budget clock) :=
  inferInstanceAs (Decidable (_ ∧ _ ∧ _))

theorem budgetReady_of_ready (h : Ready budget clock) :
    budgetReady budget clock = (budget, true) := by
  obtain ⟨hframes, hbytes, htime⟩ := h
  unfold budgetReady
  rw [if_neg]
  omega

theorem budgetReady_of_spent (h : ¬Ready budget clock) :
    budgetReady budget clock = ({ budget with exhausted := true }, false) := by
  unfold Ready at h
  unfold budgetReady
  rw [if_pos]
  omega

theorem Ready.earlier {first rest : List Frame}
    (h : Ready (budgetAccount budget (first ++ rest)) t) (hstart : budget.started ≤ clock)
    (hclock : clock ≤ t) (ht : t < 2 ^ 64) : Ready (budgetAccount budget first) clock := by
  obtain ⟨hframes, hbytes, htime⟩ := h
  unfold Ready
  simp only [budgetAccount, List.length_append, List.map_append, List.sum_append] at *
  refine ⟨by omega, by omega, ?_⟩
  rcases htime with hnone | hsoon
  · exact Or.inl (by omega)
  · right
    unfold wrapSub at *
    omega

def rounds : ℕ := visitMaxFrames + 2

def Spent (clocks : List ℕ) (media : List Frame) (budget : Budget) : Prop :=
  ∃ clock ∈ clocks, ∃ first rest, media = first ++ rest ∧
    ¬Ready (budgetAccount budget first) clock

structure Paid (clocks : List ℕ) (media : List Frame) (budget budget' : Budget) : Prop where
  whole : budget'.exhausted = false → budget' = budgetAccount budget media
  spent : budget.exhausted = false → budget'.exhausted = true → Spent clocks media budget

structure Drained (clocks : List ℕ) (feed : MediaFeed.Feed) (media : List Frame) (budget : Budget)
    (r : MediaFeed.Feed × MediaFeed.Cursor × Budget) : Prop where
  ring : SameRing feed r.1
  paid : Paid clocks media budget r.2.2

theorem Paid.nothing (clocks : List ℕ) (budget : Budget) : Paid clocks [] budget budget where
  whole := fun _ => rfl
  spent := fun hfresh hspent => nomatch hfresh.symm.trans hspent

theorem Paid.append {clocks clocks' : List ℕ} {media media' : List Frame}
    {budget' budget'' : Budget} (h : Paid clocks media budget budget')
    (h' : Paid clocks' media' budget' budget'') :
    Paid (clocks ++ clocks') (media ++ media') budget budget'' where
  whole := by
    intro hleft
    have hlast := h'.whole hleft
    rw [hlast] at hleft
    rw [hlast, h.whole hleft, budgetAccount_append]
  spent := by
    intro hfresh hspent
    cases hmid : budget'.exhausted with
    | true =>
      obtain ⟨clock, hclock, first, rest, hmedia, hready⟩ := h.spent hfresh hmid
      exact ⟨clock, List.mem_append_left _ hclock, first, rest ++ media', by
        rw [hmedia, List.append_assoc], hready⟩
    | false =>
      obtain ⟨clock, hclock, first, rest, hmedia, hready⟩ := h'.spent hmid hspent
      refine ⟨clock, List.mem_append_right _ hclock, media ++ first, rest, ?_, ?_⟩
      · rw [hmedia, List.append_assoc]
      · rw [← budgetAccount_append, ← h.whole hmid]
        exact hready

theorem Drained.at_once {clocks : List ℕ} {media : List Frame} (h : ¬Ready budget clock) :
    Drained (clock :: clocks) feed media budget
      (feed, cursor, { budget with exhausted := true }) where
  ring := ⟨rfl, rfl, rfl, rfl, rfl, rfl, rfl⟩
  paid := ⟨fun hleft => (nomatch hleft), fun _ _ => ⟨clock, List.mem_cons_self, [], media, rfl, h⟩⟩

theorem Drained.round {clocks : List ℕ} {media : List Frame}
    {r : MediaFeed.Feed × MediaFeed.Cursor × Budget} (first : List Frame)
    (hring : SameRing feed feed')
    (h : Drained clocks feed' media (budgetAccount budget first) r) :
    Drained (clock :: clocks) feed (first ++ media) budget r where
  ring := hring.trans h.ring
  paid := by
    refine ⟨fun hleft => (h.paid.whole hleft).trans (budgetAccount_append budget first media), ?_⟩
    intro hfresh hspent
    obtain ⟨late, hlate, before, rest, hmedia, hready⟩ := h.paid.spent hfresh hspent
    refine ⟨late, List.mem_cons_of_mem _ hlate, first ++ before, rest, ?_, ?_⟩
    · rw [hmedia, List.append_assoc]
    · rw [← budgetAccount_append]
      exact hready

theorem drain_inPlace {units bytes : ℕ} (now : ℕ) (budget : Budget) (hunits : 0 < units)
    (hbytes : 0 < bytes) (clocks : List ℕ) (h : InPlace feed cursor)
    (henough : visitMaxFrames - budget.frames < clocks.length) :
    Drained clocks feed (framesFrom feed cursor.nextSequence) budget
      (drain units bytes now clocks feed cursor budget) := by
  induction clocks generalizing feed cursor budget with
  | nil => exact absurd henough (Nat.not_lt_zero _)
  | cons clock clocks ih =>
    unfold drain
    by_cases hready : Ready budget clock
    · rw [budgetReady_of_ready hready]
      dsimp only
      have hopen : ¬(min units (visitMaxFrames - budget.frames) = 0 ∨
          min bytes (visitMaxBytes - budget.bytes) = 0) := by
        obtain ⟨hframes, hmore, _⟩ := hready
        omega
      rw [if_neg hopen]
      have hread := read_reads h (min units (visitMaxFrames - budget.frames))
        (min bytes (visitMaxBytes - budget.bytes)) now
      generalize MediaFeed.read feed cursor (min units (visitMaxFrames - budget.frames))
        (min bytes (visitMaxBytes - budget.bytes)) now = r at hread ⊢
      rcases hread.cases with ⟨hstatus, hnone⟩ | ⟨hstatus, hsome, hplace, hframes⟩
      · rw [hstatus]
        rw [hnone (by omega)]
        exact ⟨hread.ring, Paid.nothing _ _⟩
      · rw [hstatus, hframes]
        have hpos := List.length_pos_iff.mpr hsome
        have hlonger : (budgetAccount budget r.frames).frames =
          budget.frames + r.frames.length := rfl
        have hrest := ih (budgetAccount budget r.frames) ((hread.ring.inPlace r.cursor).mpr hplace)
          (by
            rw [hlonger]
            rw [List.length_cons] at henough
            omega)
        rw [hread.ring.framesFrom] at hrest
        exact hrest.round r.frames hread.ring
    · rw [budgetReady_of_spent hready]
      exact Drained.at_once hready

theorem read_lost (h : ¬InPlace feed cursor) (maxUnits maxBytes now : ℕ) :
    ((MediaFeed.read feed cursor maxUnits maxBytes now).status = .overrun ∨
      (MediaFeed.read feed cursor maxUnits maxBytes now).status = .generationMismatch) ∧
      SameRing feed (MediaFeed.read feed cursor maxUnits maxBytes now).feed := by
  unfold MediaFeed.read
  by_cases hgeneration : cursor.generation ≠ feed.generation
  · rw [if_pos hgeneration]
    exact ⟨Or.inr rfl, rfl, rfl, rfl, rfl, rfl, rfl, rfl⟩
  · rw [if_neg hgeneration]
    by_cases hbehind : cursor.nextSequence < feed.tail
    · rw [if_pos hbehind]
      exact ⟨Or.inl rfl, rfl, rfl, rfl, rfl, rfl, rfl, rfl⟩
    · rw [if_neg hbehind]
      have hahead : cursor.nextSequence > feed.head := by
        by_contra hle
        exact h ⟨not_not.mp hgeneration, by omega, by omega⟩
      rw [if_pos hahead]
      exact ⟨Or.inr rfl, rfl, rfl, rfl, rfl, rfl, rfl, rfl⟩

theorem drain_lost {units bytes : ℕ} (now : ℕ) (hunits : 0 < units) (hbytes : 0 < bytes)
    (clocks : List ℕ) (h : ¬InPlace feed cursor) (hready : Ready budget clock) :
    ∃ feed', SameRing feed feed' ∧
      drain units bytes now (clock :: clocks) feed cursor budget =
        drain units bytes now clocks feed'
          (MediaFeed.resync feed cursor MediaFeed.resyncKeyframe).1 budget := by
  have hopen : ¬(min units (visitMaxFrames - budget.frames) = 0 ∨
      min bytes (visitMaxBytes - budget.bytes) = 0) := by
    obtain ⟨hframes, hmore, _⟩ := hready
    omega
  obtain ⟨hstatus, hring⟩ := read_lost h (min units (visitMaxFrames - budget.frames))
    (min bytes (visitMaxBytes - budget.bytes)) now
  have hround : drain units bytes now (clock :: clocks) feed cursor budget =
      match MediaFeed.read feed cursor (min units (visitMaxFrames - budget.frames))
        (min bytes (visitMaxBytes - budget.bytes)) now with
      | r =>
        match r.status with
        | .batch => drain units bytes now clocks r.feed r.cursor (budgetAccount budget r.frames)
        | .empty => (r.feed, cursor, budget)
        | .overrun | .generationMismatch =>
          drain units bytes now clocks r.feed
            (MediaFeed.resync r.feed r.cursor MediaFeed.resyncKeyframe).1 budget := by
    rw [drain, budgetReady_of_ready hready]
    dsimp only
    rw [if_neg hopen]
  rw [hround]
  generalize MediaFeed.read feed cursor (min units (visitMaxFrames - budget.frames))
    (min bytes (visitMaxBytes - budget.bytes)) now = r at hstatus hring ⊢
  refine ⟨r.feed, hring, ?_⟩
  rw [← hring.resync cursor r.cursor]
  rcases hstatus with hstatus | hstatus
  · dsimp only
    rw [hstatus]
  · dsimp only
    rw [hstatus]

theorem drain_broken {units bytes : ℕ} (hunits : 0 < units) (hbytes : 0 < bytes)
    (clocks : List ℕ) (h : feed.head < feed.tail) :
    Drained clocks feed [] budget (drain units bytes now clocks feed cursor budget) := by
  induction clocks generalizing feed cursor with
  | nil =>
    exact ⟨⟨rfl, rfl, rfl, rfl, rfl, rfl, rfl⟩, Paid.nothing _ _⟩
  | cons clock clocks ih =>
    by_cases hready : Ready budget clock
    · have hlost : ¬InPlace feed cursor := by
        rintro ⟨_, htail, hhead⟩
        omega
      obtain ⟨feed', hring, hround⟩ := drain_lost now hunits hbytes clocks hlost hready
      rw [hround]
      have hrest := @ih feed' (MediaFeed.resync feed cursor MediaFeed.resyncKeyframe).1 (by
        rw [hring.head, hring.tail]
        exact h)
      exact hrest.round [] hring
    · unfold drain
      rw [budgetReady_of_spent hready]
      exact Drained.at_once hready

theorem resync_inPlace (h : feed.tail ≤ feed.head) (cursor : MediaFeed.Cursor) :
    InPlace feed (MediaFeed.resync feed cursor MediaFeed.resyncKeyframe).1 := by
  rw [resync_keyframe]
  refine ⟨rfl, ?_⟩
  dsimp only
  by_cases hretained : MediaFeed.keyframeRetained feed
  · rw [if_pos hretained]
    exact ⟨hretained.2.1, hretained.2.2.le⟩
  · rw [if_neg hretained]
    exact ⟨h, Nat.le_refl _⟩

theorem resync_broken (h : feed.head < feed.tail) (cursor : MediaFeed.Cursor) :
    framesFrom feed (MediaFeed.resync feed cursor MediaFeed.resyncKeyframe).1.nextSequence =
      [] := by
  have hlost : ¬MediaFeed.keyframeRetained feed := by
    rintro ⟨_, htail, hhead⟩
    omega
  rw [resync_keyframe, if_neg hlost]
  simp [framesFrom]

theorem drain_drained {units bytes : ℕ} (hunits : 0 < units) (hbytes : 0 < bytes)
    {clocks : List ℕ} (henough : rounds ≤ clocks.length) (feed : MediaFeed.Feed)
    (cursor : MediaFeed.Cursor) (budget : Budget) :
    Drained clocks feed (waiting feed cursor) budget
      (drain units bytes now clocks feed cursor budget) := by
  unfold rounds at henough
  unfold waiting place
  by_cases hin : InPlace feed cursor
  · rw [if_pos hin]
    exact drain_inPlace now budget hunits hbytes clocks hin (by omega)
  · rw [if_neg hin]
    by_cases hwhole : feed.tail ≤ feed.head
    · cases clocks with
      | nil => simp at henough
      | cons clock clocks =>
        rw [List.length_cons] at henough
        by_cases hready : Ready budget clock
        · obtain ⟨feed', hring, hround⟩ := drain_lost now hunits hbytes clocks hin hready
          have hplace := (hring.inPlace _).mpr (resync_inPlace hwhole cursor)
          have hrest := drain_inPlace now budget hunits hbytes clocks hplace
            (by omega)
          rw [hring.framesFrom] at hrest
          rw [hround]
          exact hrest.round [] hring
        · unfold drain
          rw [budgetReady_of_spent hready]
          exact Drained.at_once hready
    · rw [resync_broken (Nat.lt_of_not_le hwhole)]
      exact drain_broken hunits hbytes clocks (Nat.lt_of_not_le hwhole)

end BudgetDrain

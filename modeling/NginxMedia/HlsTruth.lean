import Mathlib.Data.List.Nodup
import NginxMedia.HlsPush

/-! What accepted playlists promise. Each sealed segment is uploaded, on the missing list, waiting
in the pipeline, or in front of everything that a later playlist keeps. -/
namespace HlsTruth

open ByteString HlsPush

variable {stream : Stream} {push : Push} {w : World} {past f lo hi k : ℕ}

def Truthful (log : List Event) : Prop :=
  ∀ i entries, log[i]? = some (.accepted entries) →
    ∀ e ∈ entries, e.gap = false → .uploaded e.uri ∈ log.take i

/-- The first segment that a destination's playlist keeps. -/
def keptFrom (window f lo hi : ℕ) : ℕ := max (max lo (if window = 0 then 0 else hi - window)) f

theorem keptFrom_mono {window f lo lo' hi hi' : ℕ} (hlo : lo ≤ lo') (hhi : hi ≤ hi') :
    keptFrom window f lo hi ≤ keptFrom window f lo' hi' := by
  unfold keptFrom
  split_ifs <;> omega

def names (stream : Stream) (lo hi : ℕ) : List Str := (List.range' lo (hi - lo)).map stream.name

theorem mem_names (stream : Stream) : stream.name k ∈ names stream lo hi ↔ lo ≤ k ∧ k < hi := by
  unfold names
  rw [List.mem_map_of_injective stream.distinct, List.mem_range'_1]
  omega

theorem names_drop (stream : Stream) (lo hi n : ℕ) :
    (names stream lo hi).drop n = names stream (lo + n) hi := by
  unfold names
  rw [← List.map_drop, List.drop_range', Nat.mul_one, Nat.sub_sub]

theorem names_index (stream : Stream) (hlo : lo ≤ f) (hhi : f < hi) :
    (names stream lo hi).idxOf (stream.name f) = f - lo := by
  have hnodup : (names stream lo hi).Nodup := (List.nodup_range' ).map stream.distinct
  have hlt : f - lo < (names stream lo hi).length := by
    simp only [names, List.length_map, List.length_range']
    omega
  have hget : (names stream lo hi)[f - lo] = stream.name f := by
    simp only [names, List.getElem_map, List.getElem_range']
    congr 1
    omega
  rw [← hget]
  exact hnodup.idxOf_getElem _ hlt

theorem removed_eq (stream : Stream) (window : ℕ) (missing : List Str) (hle : lo ≤ hi)
    (hf : f < hi) :
    lo + removed ⟨window, stream.name f, missing⟩ (names stream lo hi) =
      keptFrom window f lo hi := by
  have hlen : (names stream lo hi).length = hi - lo := by
    simp [names]
  unfold removed keptFrom
  rw [hlen]
  by_cases hin : lo ≤ f
  · have hmem : stream.name f ∈ names stream lo hi := (mem_names stream).mpr ⟨hin, hf⟩
    dsimp only
    rw [if_pos ⟨stream.named f, hmem⟩, names_index stream hin hf]
    split_ifs <;> omega
  · have hmem : ¬ stream.name f ∈ names stream lo hi := by
      rw [mem_names]
      omega
    dsimp only
    rw [if_neg (fun h => hmem h.2)]
    split_ifs <;> omega

theorem entries_uris (stream : Stream) (lo hi size : ℕ) :
    ((File.playlist lo hi size).entries stream).map Entry.uri = names stream lo hi := by
  simp [File.entries, names, Function.comp_def]

theorem rewrite_uris (stream : Stream) (window size : ℕ) (missing : List Str) (hle : lo ≤ hi)
    (hf : f < hi) :
    (rewrite ⟨window, stream.name f, missing⟩ ((File.playlist lo hi size).entries stream)).map
      Entry.uri = names stream (keptFrom window f lo hi) hi := by
  unfold rewrite
  rw [List.map_map, show Entry.uri ∘ mark ⟨window, stream.name f, missing⟩ = Entry.uri from rfl,
    List.map_drop, entries_uris, names_drop, removed_eq stream window missing hle hf]

theorem rewrite_clean {opts : Opts} {entries : List Entry} {e : Entry}
    (he : e ∈ rewrite opts entries) (hgap : e.gap = false) : e.uri ∉ opts.missing := by
  obtain ⟨entry, -, rfl⟩ := List.mem_map.mp he
  simp only [mark, Bool.or_eq_false_iff, decide_eq_false_iff_not] at hgap
  exact hgap.2

def pipeline (push : Push) : List File :=
  push.inflight.toList.map (fun flight => flight.item.file) ++ push.queue.map Item.file

def Before : File → File → Prop
  | .segment j, .segment k => j < k
  | .segment k, .playlist _ hi _ => k < hi
  | .playlist _ hi _, .segment k => hi ≤ k
  | .playlist lo hi _, .playlist lo' hi' _ => lo ≤ lo' ∧ hi ≤ hi'

def Belongs (stream : Stream) (w : World) : File → Prop
  | .segment k => k < w.total ∧ (stream.name k).length < nameMax
  | .playlist lo hi _ => lo ≤ hi ∧ hi ≤ w.total ∧ lo ≤ w.listed

structure Begun (stream : Stream) (w : World) (past f : ℕ) : Prop where
  first : w.push.first = stream.name f
  sealed : f < w.total
  behind : ∀ lo hi size, .playlist lo hi size ∈ pipeline w.push → f < hi
  keeps : ∀ lo hi size, .playlist lo hi size ∈ pipeline w.push →
    past ≤ keptFrom w.push.window f lo hi
  future : past ≤ keptFrom w.push.window f w.listed w.total

/-- Before that, nothing has been accepted. -/
structure Waiting (w : World) (past : ℕ) : Prop where
  first : w.push.first = []
  idle : ∀ flight ∈ w.push.inflight, False
  ahead : ∀ k, .segment k ∈ pipeline w.push → past ≤ k
  future : past ≤ w.total

def Accounted (stream : Stream) (w : World) (past k : ℕ) : Prop :=
  .uploaded (stream.name k) ∈ w.log ∨ stream.name k ∈ w.push.missing ∨
    .segment k ∈ pipeline w.push ∨ k < past

def Sound (stream : Stream) (w : World) (f : ℕ) : Prop :=
  ∀ item entries gaps, w.push.inflight = some ⟨item, some (.rewritten entries gaps)⟩ →
    (∀ lo hi size, item.file = .playlist lo hi size →
      entries.map Entry.uri = names stream (keptFrom w.push.window f lo hi) hi) ∧
    ∀ e ∈ entries, e.gap = false → .uploaded e.uri ∈ w.log

structure Account (stream : Stream) (w : World) (past f : ℕ) : Prop where
  listed : w.listed ≤ w.total
  files : ∀ file ∈ pipeline w.push, Belongs stream w file
  order : (pipeline w.push).Pairwise Before
  known : ∀ k < w.total, Accounted stream w past k
  phase : Waiting w past ∨ Begun stream w past f
  body : Sound stream w f
  whole : ∀ item, w.push.inflight = some ⟨item, some .asIs⟩ → False
  truth : Truthful w.log

theorem Account.settle (h : Account stream w past f) (push : Push) {past' : ℕ}
    (hsub : (pipeline push).Sublist (pipeline w.push)) (hwindow : push.window = w.push.window)
    (hin : push.inflight = none ∨ push.inflight = w.push.inflight)
    (hknown : ∀ k < w.total, Accounted stream { w with push := push } past' k)
    (hphase : Waiting { w with push := push } past' ∨
      Begun stream { w with push := push } past' f) :
    Account stream { w with push := push } past' f where
  listed := h.listed
  files := fun file hfile => h.files file (hsub.subset hfile)
  order := h.order.sublist hsub
  known := hknown
  phase := hphase
  body := by
    intro item entries gaps hitem
    rcases hin with hnone | hsame
    · rw [show ({ w with push := push } : World).push.inflight = none from hnone] at hitem
      contradiction
    · rw [show ({ w with push := push } : World).push.window = w.push.window from hwindow]
      exact h.body item entries gaps (hsame.symm.trans hitem)
  whole := by
    intro item hitem
    rcases hin with hnone | hsame
    · rw [show ({ w with push := push } : World).push.inflight = none from hnone] at hitem
      contradiction
    · exact h.whole item (hsame.symm.trans hitem)
  truth := h.truth

/-- The bounds outlast files that leave the pipeline. -/
theorem Begun.lose (hb : Begun stream w past f) (push : Push)
    (hsub : (pipeline push).Sublist (pipeline w.push)) (hwindow : push.window = w.push.window)
    (hfirst : push.first = w.push.first) : Begun stream { w with push := push } past f := by
  refine ⟨hfirst.trans hb.first, hb.sealed, ?_, ?_, ?_⟩
  · exact fun lo hi size hp => hb.behind lo hi size (hsub.subset hp)
  · intro lo hi size hp
    rw [show ({ w with push := push } : World).push.window = w.push.window from hwindow]
    exact hb.keeps lo hi size (hsub.subset hp)
  · rw [show ({ w with push := push } : World).push.window = w.push.window from hwindow]
    exact hb.future

theorem Account.lose (h : Account stream w past f) (push : Push)
    (hsub : (pipeline push).Sublist (pipeline w.push))
    (hmissing : ∀ k, stream.name k ∈ w.push.missing → stream.name k ∈ push.missing)
    (hkept : ∀ k, .segment k ∈ pipeline w.push →
      .segment k ∈ pipeline push ∨ stream.name k ∈ push.missing)
    (hwindow : push.window = w.push.window) (hfirst : push.first = w.push.first)
    (hin : push.inflight = none ∨ push.inflight = w.push.inflight) :
    Account stream { w with push := push } past f := by
  apply h.settle push hsub hwindow hin
  · intro k hk
    rcases h.known k hk with hup | hmiss | hpipe | hpast
    · exact Or.inl hup
    · exact Or.inr (Or.inl (hmissing k hmiss))
    · rcases hkept k hpipe with hstill | hlost
      · exact Or.inr (Or.inr (Or.inl hstill))
      · exact Or.inr (Or.inl hlost)
    · exact Or.inr (Or.inr (Or.inr hpast))
  · rcases h.phase with hw | hb
    · left
      refine ⟨hfirst.trans hw.first, ?_, fun k hk => hw.ahead k (hsub.subset hk), hw.future⟩
      intro flight hflight
      rcases hin with hnone | hsame
      · rw [show ({ w with push := push } : World).push.inflight = none from hnone] at hflight
        contradiction
      · exact hw.idle flight (hsame ▸ hflight)
    · exact Or.inr (hb.lose push hsub hwindow hfirst)

theorem Account.counters (h : Account stream w past f) (push : Push)
    (hqueue : push.queue = w.push.queue) (hin : push.inflight = w.push.inflight)
    (hmissing : push.missing = w.push.missing) (hwindow : push.window = w.push.window)
    (hfirst : push.first = w.push.first) : Account stream { w with push := push } past f := by
  have hpipe : pipeline push = pipeline w.push := by
    rw [pipeline, pipeline, hqueue, hin]
  refine h.lose push ?_ ?_ ?_ hwindow hfirst (Or.inr hin)
  · rw [hpipe]
  · rw [hmissing]
    exact fun _ => id
  · rw [hpipe]
    exact fun _ => Or.inl

theorem setName_short {name : Str} (h : name.length < nameMax) : setName name = name :=
  List.take_of_length_le (by unfold nameMax at *; omega)

theorem missingAdd_mem {name : Str} (hroom : push.missing.length < missingMax)
    (hname : name.length < nameMax) : (missingAdd push name).missing = push.missing ++ [name] := by
  unfold missingAdd
  rw [if_neg (Nat.ne_of_lt hroom), setName_short hname]

theorem name_segment (stream : Stream) (k : ℕ) :
    isPlaylist ((File.segment k).name stream) = false := stream.media k

theorem name_playlist (stream : Stream) (lo hi size : ℕ) :
    isPlaylist ((File.playlist lo hi size).name stream) = true := stream.listing

theorem Account.dropOldest (h : Account stream w past f)
    (hroom : ∀ item ∈ w.push.queue.head?, isPlaylist (item.file.name stream) = false →
      w.push.missing.length < missingMax) :
    Account stream { w with push := dropOldest stream w.push } past f := by
  cases hq : w.push.queue with
  | nil =>
    have hsame : HlsPush.dropOldest stream w.push = w.push := by
      rw [HlsPush.dropOldest, hq]
    rw [hsame]
    exact h
  | cons oldest rest =>
    have hpipe : pipeline w.push =
        w.push.inflight.toList.map (fun flight => flight.item.file) ++
          oldest.file :: rest.map Item.file := by
      rw [pipeline, hq]
      rfl
    cases hfile : oldest.file with
    | playlist lo hi size =>
      have hdrop : HlsPush.dropOldest stream w.push =
          { w.push with queue := rest, dropped := w.push.dropped + 1 } := by
        rw [HlsPush.dropOldest, hq]
        dsimp only
        rw [hfile, name_playlist]
        rfl
      rw [hdrop]
      refine h.lose _ ?_ (fun _ => id) ?_ rfl rfl (Or.inr rfl)
      · rw [hpipe]
        exact List.Sublist.append (List.Sublist.refl _) (List.sublist_cons_self _ _)
      · intro k hk
        left
        rw [hpipe, hfile] at hk
        simpa [pipeline] using hk
    | segment j =>
      have hmem : File.segment j ∈ pipeline w.push := by
        rw [hpipe, hfile]
        simp
      have hshort := (h.files _ hmem).2
      have hadd := missingAdd_mem (hroom oldest (by rw [hq]; rfl) (by
        rw [hfile]
        exact name_segment stream j)) hshort
      have hdrop : HlsPush.dropOldest stream w.push =
          { w.push with
            missing := w.push.missing ++ [stream.name j]
            queue := rest
            dropped := w.push.dropped + 1 } := by
        rw [HlsPush.dropOldest, hq]
        dsimp only
        rw [hfile, name_segment, if_neg Bool.false_ne_true]
        rw [show (File.segment j).name stream = stream.name j from rfl, ← hadd]
        rfl
      rw [hdrop]
      refine h.lose _ ?_ ?_ ?_ rfl rfl (Or.inr rfl)
      · rw [hpipe]
        exact List.Sublist.append (List.Sublist.refl _) (List.sublist_cons_self _ _)
      · exact fun k hk => List.mem_append_left _ hk
      · intro k hk
        rw [hpipe, hfile] at hk
        by_cases hjk : k = j
        · right
          rw [hjk]
          exact List.mem_append_right _ List.mem_cons_self
        · left
          simpa [pipeline, hjk] using hk

def queued (push : Push) (file : File) : Push := { push with queue := push.queue ++ [⟨file, 0, 0, 0⟩] }

theorem pipeline_queued (push : Push) (file : File) :
    pipeline (queued push file) = pipeline push ++ [file] := by
  simp [pipeline, queued]

theorem Account.queueSegment (h : Account stream w past f)
    (hname : (stream.name w.total).length < nameMax) :
    Account stream { w with push := queued w.push (.segment w.total), total := w.total + 1 }
      past f := by
  have hpipe := pipeline_queued w.push (.segment w.total)
  refine ⟨Nat.le_succ_of_le h.listed, ?_, ?_, ?_, ?_, h.body, h.whole, h.truth⟩
  · intro file hfile
    dsimp only at hfile
    rw [hpipe, List.mem_append, List.mem_singleton] at hfile
    rcases hfile with hfile | rfl
    · have := h.files file hfile
      cases file with
      | segment k => exact ⟨Nat.lt_succ_of_lt this.1, this.2⟩
      | playlist lo hi size => exact ⟨this.1, Nat.le_succ_of_le this.2.1, this.2.2⟩
    · exact ⟨Nat.lt_succ_self _, hname⟩
  · dsimp only
    rw [hpipe, List.pairwise_append]
    refine ⟨h.order, List.pairwise_singleton _ _, ?_⟩
    intro file hfile last hlast
    rw [List.mem_singleton.mp hlast]
    have := h.files file hfile
    cases file with
    | segment k => exact this.1
    | playlist lo hi size => exact this.2.1
  · intro k hk
    have hmem : ∀ file, file ∈ pipeline w.push ∨ file = .segment w.total →
        file ∈ pipeline (queued w.push (.segment w.total)) := by
      intro file hfile
      rw [hpipe]
      simpa using hfile
    rcases Nat.lt_succ_iff_lt_or_eq.mp hk with hlt | rfl
    · rcases h.known k hlt with hup | hmiss | hin | hpast
      · exact Or.inl hup
      · exact Or.inr (Or.inl hmiss)
      · exact Or.inr (Or.inr (Or.inl (hmem _ (Or.inl hin))))
      · exact Or.inr (Or.inr (Or.inr hpast))
    · exact Or.inr (Or.inr (Or.inl (hmem _ (Or.inr rfl))))
  · rcases h.phase with hw | hb
    · left
      refine ⟨hw.first, hw.idle, ?_, Nat.le_succ_of_le hw.future⟩
      intro k hk
      dsimp only at hk
      rw [hpipe, List.mem_append, List.mem_singleton] at hk
      rcases hk with hk | hk
      · exact hw.ahead k hk
      · rw [File.segment.inj hk]
        exact hw.future
    · right
      refine ⟨hb.first, Nat.lt_succ_of_lt hb.sealed, ?_, ?_, ?_⟩
      · intro lo hi size hp
        dsimp only at hp
        rw [hpipe] at hp
        exact hb.behind lo hi size (by simpa using hp)
      · intro lo hi size hp
        dsimp only at hp
        rw [hpipe] at hp
        exact hb.keeps lo hi size (by simpa using hp)
      · exact hb.future.trans (keptFrom_mono (Nat.le_refl _) (Nat.le_succ _))

theorem from_le (w : World) (leaving : ℕ) : w.from leaving ≤ w.total := Nat.min_le_right _ _

theorem listed_le_from (h : w.listed ≤ w.total) (leaving : ℕ) : w.listed ≤ w.from leaving := by
  unfold World.from
  omega

theorem Account.slide (h : Account stream w past f) (leaving : ℕ) :
    Account stream { w with listed := w.from leaving } past f := by
  have hle := listed_le_from h.listed leaving
  refine ⟨from_le w leaving, ?_, h.order, h.known, ?_, h.body, h.whole, h.truth⟩
  · intro file hfile
    have := h.files file hfile
    cases file with
    | segment k => exact this
    | playlist lo hi size => exact ⟨this.1, this.2.1, this.2.2.trans hle⟩
  · rcases h.phase with hw | hb
    · exact Or.inl ⟨hw.first, hw.idle, hw.ahead, hw.future⟩
    · exact Or.inr ⟨hb.first, hb.sealed, hb.behind, hb.keeps,
        hb.future.trans (keptFrom_mono hle (Nat.le_refl _))⟩

theorem Account.queuePlaylist (h : Account stream w past f) (size : ℕ) :
    Account stream { w with push := queued w.push (.playlist w.listed w.total size) } past f := by
  have hpipe := pipeline_queued w.push (.playlist w.listed w.total size)
  have hmem : ∀ file, file ∈ pipeline (queued w.push (.playlist w.listed w.total size)) ↔
      file ∈ pipeline w.push ∨ file = .playlist w.listed w.total size := by
    intro file
    rw [hpipe, List.mem_append, List.mem_singleton]
  refine ⟨h.listed, ?_, ?_, ?_, ?_, h.body, h.whole, h.truth⟩
  · intro file hfile
    rcases (hmem file).mp hfile with hfile | rfl
    · exact h.files file hfile
    · exact ⟨h.listed, Nat.le_refl _, Nat.le_refl _⟩
  · dsimp only
    rw [hpipe, List.pairwise_append]
    refine ⟨h.order, List.pairwise_singleton _ _, ?_⟩
    intro file hfile last hlast
    rw [List.mem_singleton.mp hlast]
    have := h.files file hfile
    cases file with
    | segment k => exact this.1
    | playlist lo hi size => exact ⟨this.2.2, this.2.1⟩
  · intro k hk
    rcases h.known k hk with hup | hmiss | hin | hpast
    · exact Or.inl hup
    · exact Or.inr (Or.inl hmiss)
    · exact Or.inr (Or.inr (Or.inl ((hmem _).mpr (Or.inl hin))))
    · exact Or.inr (Or.inr (Or.inr hpast))
  · rcases h.phase with hw | hb
    · left
      refine ⟨hw.first, hw.idle, ?_, hw.future⟩
      intro k hk
      rcases (hmem _).mp hk with hk | hk
      · exact hw.ahead k hk
      · contradiction
    · right
      refine ⟨hb.first, hb.sealed, ?_, ?_, hb.future⟩
      · intro lo hi size' hp
        rcases (hmem _).mp hp with hp | hp
        · exact hb.behind lo hi size' hp
        · obtain ⟨-, rfl, -⟩ := File.playlist.inj hp
          exact hb.sealed
      · intro lo hi size' hp
        rcases (hmem _).mp hp with hp | hp
        · exact hb.keeps lo hi size' hp
        · obtain ⟨rfl, rfl, -⟩ := File.playlist.inj hp
          exact hb.future

def Room (stream : Stream) (push : Push) : Prop :=
  push.queue.length = queueMax → ∀ item ∈ push.queue.head?,
    isPlaylist (item.file.name stream) = false → push.missing.length < missingMax

theorem Account.makeRoom (h : Account stream w past f) (hroom : Room stream w.push) :
    Account stream { w with
      push := if w.push.queue.length = queueMax then HlsPush.dropOldest stream w.push
        else w.push } past f := by
  split_ifs with hfull
  · exact h.dropOldest (hroom hfull)
  · exact h

theorem Account.enqueueSegment (h : Account stream w past f) (hroom : Room stream w.push)
    (hname : (stream.name w.total).length < nameMax) :
    Account stream { w with
      push := enqueue stream w.push (.segment w.total)
      total := w.total + 1 } past f :=
  (h.makeRoom hroom).queueSegment hname

theorem Account.enqueuePlaylist (h : Account stream w past f) (hroom : Room stream w.push)
    (size : ℕ) :
    Account stream { w with push := enqueue stream w.push (.playlist w.listed w.total size) }
      past f :=
  (h.makeRoom hroom).queuePlaylist size

theorem pipeline_take {item : Item} {rest : List Item} (hq : push.queue = item :: rest)
    (hin : push.inflight = none) : pipeline push = item.file :: rest.map Item.file := by
  simp [pipeline, hq, hin]

def taken (push : Push) (first : Str) (item : Item) (rest : List Item) : Push :=
  { push with queue := rest, first := first, inflight := some ⟨item, none⟩ }

theorem pipeline_taken {item later : Item} {rest : List Item} (first : Str)
    (hq : push.queue = item :: rest) (hin : push.inflight = none)
    (hsame : later.file = item.file) : pipeline (taken push first later rest) = pipeline push := by
  rw [pipeline_take hq hin]
  simp [pipeline, taken, hsame]

theorem Account.take (h : Account stream w past f) {item later : Item} {rest : List Item}
    (hq : w.push.queue = item :: rest) (hin : w.push.inflight = none)
    (hsame : later.file = item.file) (hbegun : w.push.first ≠ []) :
    Account stream { w with push := taken w.push w.push.first later rest } past f := by
  have hpipe := pipeline_taken w.push.first hq hin hsame
  refine ⟨h.listed, hpipe ▸ h.files, hpipe ▸ h.order, ?_, ?_, ?_, ?_, h.truth⟩
  · intro k hk
    unfold Accounted
    dsimp only
    rw [hpipe]
    exact h.known k hk
  · rcases h.phase with hw | hb
    · exact absurd hw.first hbegun
    · exact Or.inr ⟨hb.first, hb.sealed, hpipe ▸ hb.behind, hpipe ▸ hb.keeps, hb.future⟩
  · intro item entries gaps hitem
    simp [taken] at hitem
  · intro item hitem
    simp [taken] at hitem

theorem Account.begin (h : Account stream w past f) {item later : Item} {rest : List Item}
    (hq : w.push.queue = item :: rest) (hin : w.push.inflight = none)
    (hsame : later.file = item.file) {k : ℕ} (hfile : item.file = .segment k)
    (hwait : w.push.first = []) :
    Account stream { w with push := taken w.push (stream.name k) later rest } k k := by
  have hpipe := pipeline_taken (stream.name k) hq hin hsame
  have hhead : pipeline w.push = .segment k :: rest.map Item.file := by
    rw [pipeline_take hq hin, hfile]
  have hmem : File.segment k ∈ pipeline w.push := by
    rw [hhead]
    exact List.mem_cons_self
  have hbefore : ∀ file ∈ rest.map Item.file, Before (.segment k) file := by
    have := h.order
    rw [hhead, List.pairwise_cons] at this
    exact this.1
  have hahead : past ≤ k := by
    rcases h.phase with hw | hb
    · exact hw.ahead k hmem
    · rw [hb.first] at hwait
      exact absurd hwait (stream.named f)
  have hbehind : ∀ lo hi size, .playlist lo hi size ∈
      pipeline (taken w.push (stream.name k) later rest) → k < hi := by
    intro lo hi size hp
    rw [hpipe, hhead, List.mem_cons] at hp
    rcases hp with hp | hp
    · contradiction
    · exact hbefore _ hp
  refine ⟨h.listed, hpipe ▸ h.files, hpipe ▸ h.order, ?_, ?_, ?_, ?_, h.truth⟩
  · intro j hj
    unfold Accounted
    dsimp only
    rw [hpipe]
    rcases h.known j hj with hup | hmiss | hpipe | hpast
    · exact Or.inl hup
    · exact Or.inr (Or.inl hmiss)
    · exact Or.inr (Or.inr (Or.inl hpipe))
    · exact Or.inr (Or.inr (Or.inr (hpast.trans_le hahead)))
  · right
    refine ⟨rfl, (h.files _ hmem).1, hbehind, ?_, ?_⟩
    · intro lo hi size _
      exact Nat.le_max_right _ _
    · exact Nat.le_max_right _ _
  · intro item entries gaps hitem
    simp [taken] at hitem
  · intro item hitem
    simp [taken] at hitem

def Kept (stream : Stream) (w : World) : Prop := ∃ past f, Account stream w past f

theorem kept_take (h : Kept stream w) (now : ℕ) :
    Kept stream { w with push := HlsPush.take stream w.push now } := by
  obtain ⟨past, f, h⟩ := h
  cases hq : w.push.queue with
  | nil =>
    have hsame : HlsPush.take stream w.push now = w.push := by
      rw [HlsPush.take, hq]
    rw [hsame]
    exact ⟨past, f, h⟩
  | cons item rest =>
    unfold HlsPush.take
    rw [hq]
    dsimp only
    by_cases hbusy : w.push.inflight.isSome ∨ item.notBeforeNs ≠ 0 ∧ item.notBeforeNs > now
    · rw [if_pos hbusy]
      exact ⟨past, f, h⟩
    rw [if_neg hbusy]
    have hin : w.push.inflight = none := by
      cases hin : w.push.inflight with
      | none => rfl
      | some flight => exact absurd (Or.inl (by rw [hin]; rfl)) hbusy
    cases hfile : item.file with
    | playlist lo hi size =>
      rw [name_playlist]
      by_cases hwait : w.push.first = []
      · rw [if_pos ⟨rfl, hwait⟩]
        refine ⟨past, f, h.lose _ ?_ (fun _ => id) ?_ rfl rfl (Or.inr rfl)⟩
        · rw [pipeline_take hq hin]
          simp [pipeline, hin]
        · intro k hk
          left
          rw [pipeline_take hq hin, hfile] at hk
          simpa [pipeline, hin] using hk
      · rw [if_neg (fun hs => hwait hs.2), if_neg (fun hs => Bool.noConfusion hs.1)]
        exact ⟨past, f, h.take hq hin hfile.symm hwait⟩
    | segment k =>
      rw [name_segment, if_neg (fun hs => Bool.noConfusion hs.1)]
      have hmem : File.segment k ∈ pipeline w.push := by
        rw [pipeline_take hq hin, hfile]
        exact List.mem_cons_self
      by_cases hwait : w.push.first = []
      · rw [if_pos ⟨rfl, hwait⟩]
        rw [show (File.segment k).name stream = stream.name k from rfl,
          setName_short (h.files _ hmem).2]
        exact ⟨k, k, h.begin hq hin hfile.symm hfile hwait⟩
      · rw [if_neg (fun hs => hwait hs.2)]
        exact ⟨past, f, h.take hq hin hfile.symm hwait⟩

theorem pipeline_flight {flight : Inflight} (hin : push.inflight = some flight) :
    pipeline push = flight.item.file :: push.queue.map Item.file := by
  simp [pipeline, hin]

theorem Account.begun (h : Account stream w past f) {flight : Inflight}
    (hin : w.push.inflight = some flight) : Begun stream w past f := by
  rcases h.phase with hw | hb
  · exact (hw.idle flight (Option.mem_def.mpr hin)).elim
  · exact hb

theorem Account.rewrites (h : Account stream w past f) {flight : Inflight}
    (hin : w.push.inflight = some flight) {lo hi size : ℕ}
    (hfile : flight.item.file = .playlist lo hi size) :
    (rewrite (opts w.push) (flight.item.file.entries stream)).map Entry.uri =
        names stream (keptFrom w.push.window f lo hi) hi ∧
      ∀ e ∈ rewrite (opts w.push) (flight.item.file.entries stream), e.gap = false →
        .uploaded e.uri ∈ w.log := by
  have hb := h.begun hin
  have hhead := pipeline_flight hin
  rw [hfile] at hhead ⊢
  have hmem : File.playlist lo hi size ∈ pipeline w.push := by
    rw [hhead]
    exact List.mem_cons_self
  obtain ⟨hle, htotal, -⟩ := h.files _ hmem
  have huris := rewrite_uris stream w.push.window size w.push.missing hle
    (hb.behind lo hi size hmem)
  have hopts : opts w.push = ⟨w.push.window, stream.name f, w.push.missing⟩ := by
    rw [opts, hb.first]
  rw [hopts]
  refine ⟨huris, ?_⟩
  intro e he hgap
  have hin : e.uri ∈ names stream (keptFrom w.push.window f lo hi) hi := by
    rw [← huris]
    exact List.mem_map_of_mem he
  obtain ⟨j, hj, heq⟩ := List.mem_map.mp hin
  have hclean : e.uri ∉ w.push.missing := rewrite_clean he hgap
  rw [← heq] at hin hclean ⊢
  obtain ⟨hfrom, hto⟩ := (mem_names stream).mp hin
  rcases h.known j (hto.trans_le htotal) with hup | hmiss | hpipe | hpast
  · exact hup
  · exact absurd hmiss hclean
  · have horder := h.order
    rw [hhead, List.pairwise_cons] at horder
    rw [hhead, List.mem_cons] at hpipe
    rcases hpipe with hpipe | hpipe
    · contradiction
    · have : hi ≤ j := horder.1 _ hpipe
      omega
  · have := hb.keeps lo hi size hmem
    omega

theorem kept_read (h : Kept stream w) (whole : Bool)
    (hread : ∀ flight ∈ w.push.inflight, flight.body = none → whole = true ∧
      flight.item.file.size ≠ 0 ∧ flight.item.file.size ≤ playlistMax ∨
      isPlaylist (flight.item.file.name stream) = false) :
    Kept stream { w with push := HlsPush.read stream w.push whole } := by
  obtain ⟨past, f, h⟩ := h
  cases hin : w.push.inflight with
  | none =>
    have hsame : HlsPush.read stream w.push whole = w.push := by
      rw [HlsPush.read, hin]
    rw [hsame]
    exact ⟨past, f, h⟩
  | some flight =>
    obtain ⟨item, sending⟩ := flight
    cases sending with
    | some sent =>
      have hsame : HlsPush.read stream w.push whole = w.push := by
        rw [HlsPush.read, hin]
      rw [hsame]
      exact ⟨past, f, h⟩
    | none =>
      rw [HlsPush.read, hin]
      dsimp only
      cases hfile : item.file with
      | segment k =>
        rw [name_segment, if_neg Bool.false_ne_true]
        exact ⟨past, f, h⟩
      | playlist lo hi size =>
        rw [name_playlist, if_pos rfl]
        have hok := hread _ (Option.mem_def.mpr hin) rfl
        dsimp only at hok
        rw [hfile, name_playlist] at hok
        obtain ⟨hwhole, hsize, hmax⟩ : whole = true ∧ size ≠ 0 ∧ size ≤ playlistMax := by
          simpa [File.size] using hok
        have hbody : body stream w.push (.playlist lo hi size) whole =
            .rewritten (rewrite (opts w.push) ((File.playlist lo hi size).entries stream))
              (gapsMarked (opts w.push) ((File.playlist lo hi size).entries stream)) := by
          rw [body, if_neg]
          rintro (hzero | hlarge | hshort)
          · exact hsize hzero
          · exact absurd hmax (Nat.not_le.mpr hlarge)
          · rw [hwhole] at hshort
            contradiction
        rw [hbody]
        obtain ⟨huris, hlisted⟩ := h.rewrites hin hfile
        dsimp only at huris hlisted
        rw [hfile] at huris hlisted
        have hpipe : ∀ sending, pipeline { w.push with inflight := some ⟨item, sending⟩ } =
            pipeline w.push := by
          intro sending
          simp [pipeline, hin]
        have hb := h.begun hin
        refine ⟨past, f, h.listed, (hpipe _).symm ▸ h.files, (hpipe _).symm ▸ h.order, ?_, ?_, ?_, ?_,
          h.truth⟩
        · intro k hk
          unfold Accounted
          dsimp only
          rw [hpipe]
          exact h.known k hk
        · exact Or.inr ⟨hb.first, hb.sealed, (hpipe _).symm ▸ hb.behind,
            (hpipe _).symm ▸ hb.keeps, hb.future⟩
        · intro item' entries gaps hitem
          obtain ⟨rfl, hsent⟩ := Inflight.mk.inj (Option.some.inj hitem)
          obtain ⟨rfl, -⟩ := Body.rewritten.inj (Option.some.inj hsent)
          refine ⟨?_, hlisted⟩
          intro lo' hi' size' hfile'
          obtain ⟨rfl, rfl, -⟩ := File.playlist.inj (hfile.symm.trans hfile')
          exact huris
        · intro item' hitem
          simp at hitem

theorem truthful_append {log : List Event} {event : Event} (h : Truthful log)
    (hevent : ∀ entries, event = .accepted entries →
      ∀ e ∈ entries, e.gap = false → .uploaded e.uri ∈ log) : Truthful (log ++ [event]) := by
  intro i entries hi e he hgap
  by_cases hlt : i < log.length
  · rw [List.getElem?_append_left hlt] at hi
    rw [List.take_append_of_le_length hlt.le]
    exact h i entries hi e he hgap
  · rw [List.getElem?_append_right (Nat.not_lt.mp hlt)] at hi
    obtain ⟨hzero, heq⟩ : i - log.length = 0 ∧ event = .accepted entries := by
      cases hj : i - log.length with
      | zero =>
        rw [hj] at hi
        exact ⟨rfl, by simpa using hi⟩
      | succ n =>
        rw [hj] at hi
        simp at hi
    have hlen : i = log.length := by omega
    rw [hlen, List.take_append_of_le_length (Nat.le_refl _), List.take_length]
    exact hevent entries heq e he hgap

theorem Account.record (h : Account stream w past f) {event : Event}
    (hevent : ∀ entries, event = .accepted entries →
      ∀ e ∈ entries, e.gap = false → .uploaded e.uri ∈ w.log) :
    Account stream { w with log := w.log ++ [event] } past f where
  listed := h.listed
  files := h.files
  order := h.order
  known := by
    intro k hk
    rcases h.known k hk with hup | hrest
    · exact Or.inl (List.mem_append_left _ hup)
    · exact Or.inr hrest
  phase := by
    rcases h.phase with hw | hb
    · exact Or.inl ⟨hw.first, hw.idle, hw.ahead, hw.future⟩
    · exact Or.inr ⟨hb.first, hb.sealed, hb.behind, hb.keeps, hb.future⟩
  body := fun item entries gaps hitem =>
    ⟨(h.body item entries gaps hitem).1,
      fun e he hgap => List.mem_append_left _ ((h.body item entries gaps hitem).2 e he hgap)⟩
  whole := h.whole
  truth := truthful_append h.truth hevent

/-- An upload that is not in flight any more. -/
def idle (push : Push) : Push := { push with inflight := none }

theorem kept_refuse (h : Account stream w past f) {flight : Inflight}
    (hin : w.push.inflight = some flight) (status : ℤ) (now : ℕ)
    (hroom : isPlaylist (flight.item.file.name stream) = false →
      if retries w.push flight.item status now then w.push.queue.length < queueMax
      else w.push.missing.length < missingMax) :
    Account stream { w with push := refuse stream (idle w.push) flight.item status now } past f := by
  have hhead := pipeline_flight hin
  have hidle : pipeline (idle w.push) = w.push.queue.map Item.file := by
    simp [pipeline, idle]
  have hretries : retries (idle w.push) flight.item status now =
      retries w.push flight.item status now := rfl
  -- a playlist may be lost, and a segment may be lost to the missing list
  have hlose : ∀ push : Push, push.queue = w.push.queue → push.inflight = none →
      push.window = w.push.window → push.first = w.push.first →
      (∀ k, stream.name k ∈ w.push.missing → stream.name k ∈ push.missing) →
      (∀ k, flight.item.file = .segment k → stream.name k ∈ push.missing) →
      Account stream { w with push := push } past f := by
    intro push hqueue hnone hwindow hfirst hmissing hlost
    have hpipe : pipeline push = w.push.queue.map Item.file := by
      simp [pipeline, hqueue, hnone]
    refine h.lose push ?_ hmissing ?_ hwindow hfirst (Or.inl hnone)
    · rw [hpipe, hhead]
      exact List.sublist_cons_self _ _
    · intro k hk
      rw [hhead, List.mem_cons] at hk
      rcases hk with hk | hk
      · exact Or.inr (hlost k hk.symm)
      · rw [hpipe]
        exact Or.inl hk
  unfold refuse
  rw [hretries]
  by_cases hretry : retries w.push flight.item status now = true
  · rw [if_pos hretry]
    by_cases hfull : (idle w.push).queue.length < queueMax
    · rw [if_pos hfull]
      refine h.lose _ ?_ (fun _ => id) ?_ rfl rfl (Or.inl rfl)
      · rw [hhead]
        simp [pipeline, idle]
      · intro k hk
        left
        rw [hhead] at hk
        simpa [pipeline, idle] using hk
    · rw [if_neg hfull]
      refine hlose { idle w.push with failed := w.push.failed + 1 } rfl rfl rfl rfl (fun _ => id) ?_
      intro k hk
      rw [hk, name_segment, if_pos hretry] at hroom
      exact absurd (hroom rfl) hfull
  · rw [if_neg hretry]
    cases hfile : flight.item.file with
    | playlist lo hi size =>
      rw [name_playlist, if_pos rfl]
      refine hlose { idle w.push with failed := w.push.failed + 1 } rfl rfl rfl rfl (fun _ => id) ?_
      intro k hk
      rw [hfile] at hk
      contradiction
    | segment k =>
      have hmem : File.segment k ∈ pipeline w.push := by
        rw [hhead, hfile]
        exact List.mem_cons_self
      rw [hfile, name_segment, if_neg hretry] at hroom
      have hadd : (missingAdd (idle w.push) (stream.name k)).missing =
          w.push.missing ++ [stream.name k] :=
        missingAdd_mem (hroom rfl) (h.files _ hmem).2
      rw [name_segment, if_neg Bool.false_ne_true,
        show (File.segment k).name stream = stream.name k from rfl]
      apply hlose
      · rfl
      · rfl
      · rfl
      · rfl
      · intro j hj
        change _ ∈ (missingAdd (idle w.push) (stream.name k)).missing
        rw [hadd]
        exact List.mem_append_left _ hj
      · intro j hj
        change _ ∈ (missingAdd (idle w.push) (stream.name k)).missing
        rw [hadd, File.segment.inj (hfile.symm.trans hj)]
        exact List.mem_append_right _ List.mem_cons_self

theorem Account.uploads (h : Account stream w past f) {flight : Inflight}
    (hin : w.push.inflight = some flight) {k : ℕ} (hfile : flight.item.file = .segment k)
    (push : Push) (hqueue : push.queue = w.push.queue) (hnone : push.inflight = none)
    (hwindow : push.window = w.push.window) (hfirst : push.first = w.push.first)
    (hmissing : push.missing = w.push.missing.erase (stream.name k)) :
    Account stream { w with push := push, log := w.log ++ [.uploaded (stream.name k)] } past f := by
  have hhead := pipeline_flight hin
  have hpipe : pipeline push = w.push.queue.map Item.file := by
    simp [pipeline, hqueue, hnone]
  have hsub : (pipeline push).Sublist (pipeline w.push) := by
    rw [hpipe, hhead]
    exact List.sublist_cons_self _ _
  have hrecord : Account stream { w with log := w.log ++ [.uploaded (stream.name k)] } past f :=
    h.record (fun entries heq => by contradiction)
  refine hrecord.settle push hsub hwindow (Or.inl hnone) ?_ ?_
  · intro j hj
    unfold Accounted
    dsimp only
    by_cases hjk : j = k
    · left
      rw [hjk]
      exact List.mem_append_right _ List.mem_cons_self
    · rcases h.known j hj with hup | hmiss | hwait | hpast
      · exact Or.inl (List.mem_append_left _ hup)
      · right
        left
        rw [hmissing]
        exact (List.mem_erase_of_ne (fun heq => hjk (stream.distinct heq))).mpr hmiss
      · right
        right
        left
        rw [hhead, hfile, List.mem_cons] at hwait
        rw [hpipe]
        exact hwait.resolve_left (fun heq => hjk (File.segment.inj heq))
      · exact Or.inr (Or.inr (Or.inr hpast))
  · have hb := hrecord.begun hin
    exact Or.inr (hb.lose push hsub hwindow hfirst)

theorem kept_deletes (stream : Stream) (past f : ℕ) (uris : List Str) (answers : List ℤ) (w : World)
    (h : Account stream w past f) :
    Account stream { w with
      push := (deleteLoop w.push w.log uris answers).1
      log := (deleteLoop w.push w.log uris answers).2 } past f := by
  induction uris generalizing w answers with
  | nil => exact h
  | cons uri rest ih =>
    unfold deleteLoop
    by_cases hoff : w.push.deleteExpired = false
    · rw [if_pos hoff]
      exact h
    rw [if_neg hoff]
    dsimp only
    have hrecord : Account stream { w with log := w.log ++ [.deletion uri] } past f :=
      h.record (fun entries heq => by contradiction)
    split_ifs
    · exact ih _ { w with
        push := { w.push with deleted := w.push.deleted + 1 }
        log := w.log ++ [.deletion uri] } (hrecord.counters _ rfl rfl rfl rfl rfl)
    · exact ih _ { w with
        push := { w.push with deleteExpired := false }
        log := w.log ++ [.deletion uri] } (hrecord.counters _ rfl rfl rfl rfl rfl)
    · exact ih _ { w with log := w.log ++ [.deletion uri] } hrecord

/-- A playlist that the remote has taken: what it does not list any more is in front of all that
later ones keep. -/
theorem Account.accepts (h : Account stream w past f) {flight : Inflight}
    (hin : w.push.inflight = some flight) {lo hi size : ℕ}
    (hfile : flight.item.file = .playlist lo hi size) {entries : List Entry} {gaps : ℕ}
    (hbody : flight.body = some (.rewritten entries gaps))
    (hnew : ∀ k < w.total, stream.name k ∈ w.push.missing → k < hi)
    (push : Push) (hqueue : push.queue = w.push.queue) (hnone : push.inflight = none)
    (hwindow : push.window = w.push.window) (hfirst : push.first = w.push.first)
    (hmissing : push.missing = w.push.missing.filter (· ∈ entries.map Entry.uri)) :
    Account stream { w with push := push, log := w.log ++ [.accepted entries] }
      (keptFrom w.push.window f lo hi) f := by
  have hhead := pipeline_flight hin
  have hpipe : pipeline push = w.push.queue.map Item.file := by
    simp [pipeline, hqueue, hnone]
  have hsub : (pipeline push).Sublist (pipeline w.push) := by
    rw [hpipe, hhead]
    exact List.sublist_cons_self _ _
  have hsent : w.push.inflight = some ⟨flight.item, some (.rewritten entries gaps)⟩ := by
    rw [hin, ← hbody]
  obtain ⟨huris, hlisted⟩ := h.body _ _ _ hsent
  have huris := huris lo hi size hfile
  have hmem : File.playlist lo hi size ∈ pipeline w.push := by
    rw [hhead, hfile]
    exact List.mem_cons_self
  have hb := h.begun hin
  have hpast := hb.keeps lo hi size hmem
  obtain ⟨-, htotal, hlo⟩ := h.files _ hmem
  have hrecord : Account stream { w with log := w.log ++ [.accepted entries] } past f := by
    apply h.record
    intro entries' heq
    obtain rfl := Event.accepted.inj heq
    exact hlisted
  refine hrecord.settle push hsub hwindow (Or.inl hnone) ?_ ?_
  · intro k hk
    unfold Accounted
    dsimp only
    rcases h.known k hk with hup | hmiss | hwait | hbefore
    · exact Or.inl (List.mem_append_left _ hup)
    · by_cases hkept : stream.name k ∈ entries.map Entry.uri
      · right
        left
        rw [hmissing, List.mem_filter]
        exact ⟨hmiss, decide_eq_true hkept⟩
      · right
        right
        right
        rw [huris, mem_names] at hkept
        have := hnew k hk hmiss
        omega
    · right
      right
      left
      rw [hhead, hfile, List.mem_cons] at hwait
      rw [hpipe]
      exact hwait.resolve_left (fun heq => by contradiction)
    · exact Or.inr (Or.inr (Or.inr (hbefore.trans_le hpast)))
  · right
    have hlose := hb.lose push hsub hwindow hfirst
    refine ⟨hlose.first, hlose.sealed, hlose.behind, ?_, ?_⟩
    · intro lo' hi' size' hp
      have horder := h.order
      rw [hhead, hfile, List.pairwise_cons] at horder
      dsimp only at hp
      rw [hpipe] at hp
      have hafter : lo ≤ lo' ∧ hi ≤ hi' := horder.1 _ hp
      rw [show ({ w with push := push, log := w.log ++ [.accepted entries] } : World).push.window =
        w.push.window from hwindow]
      exact keptFrom_mono hafter.1 hafter.2
    · rw [show ({ w with push := push, log := w.log ++ [.accepted entries] } : World).push.window =
        w.push.window from hwindow]
      exact keptFrom_mono hlo htotal

def NoneMissingBehind (stream : Stream) (w : World) : File → Prop
  | .segment _ => True
  | .playlist _ hi _ => ∀ k < w.total, stream.name k ∈ w.push.missing → k < hi

/-- The calls after which the missing list still tells what the remote lacks. -/
def Honest (stream : Stream) (w : World) : Call → Prop
  | .sealSegment opening =>
    opening = .opened ∧ (stream.name w.total).length < nameMax ∧ Room stream w.push
  | .sealPlaylist _ _ opening => opening = .opened → Room stream w.push
  | .take _ => True
  | .read whole => ∀ flight ∈ w.push.inflight, flight.body = none →
    whole = true ∧ flight.item.file.size ≠ 0 ∧ flight.item.file.size ≤ playlistMax ∨
      isPlaylist (flight.item.file.name stream) = false
  | .answer status now _ => ∀ flight ∈ w.push.inflight,
    (success status = true → NoneMissingBehind stream w flight.item.file) ∧
      (success status = false → isPlaylist (flight.item.file.name stream) = false →
        if retries w.push flight.item status now then w.push.queue.length < queueMax
        else w.push.missing.length < missingMax)

theorem kept_seal_segment (h : Kept stream w) {opening : Opening}
    (hh : Honest stream w (.sealSegment opening)) :
    Kept stream (step stream w (.sealSegment opening)) := by
  obtain ⟨past, f, h⟩ := h
  obtain ⟨rfl, hname, hroom⟩ := hh
  exact ⟨past, f, h.enqueueSegment hroom hname⟩

theorem kept_seal_playlist (h : Kept stream w) {leaving size : ℕ} {opening : Opening}
    (hh : Honest stream w (.sealPlaylist leaving size opening)) :
    Kept stream (step stream w (.sealPlaylist leaving size opening)) := by
  obtain ⟨past, f, h⟩ := h
  have hslid := h.slide leaving
  cases opening with
  | opened => exact ⟨past, f, hslid.enqueuePlaylist (hh rfl) size⟩
  | gone => exact ⟨past, f, hslid.counters _ rfl rfl rfl rfl rfl⟩
  | error => exact ⟨past, f, hslid.counters _ rfl rfl rfl rfl rfl⟩

theorem kept_answer (h : Kept stream w) {status : ℤ} {now : ℕ} {answers : List ℤ}
    (hh : Honest stream w (.answer status now answers)) :
    Kept stream (step stream w (.answer status now answers)) := by
  obtain ⟨past, f, h⟩ := h
  cases hin : w.push.inflight with
  | none =>
    have hsame : answer stream w.push w.log status now answers = (w.push, w.log) := by
      rw [answer, hin]
    rw [step, hsame]
    exact ⟨past, f, h⟩
  | some flight =>
    obtain ⟨item, sending⟩ := flight
    obtain ⟨hyes, hno⟩ := hh _ (Option.mem_def.mpr hin)
    rw [step, answer, hin]
    dsimp only
    cases hfile : item.file with
    | segment k =>
      rw [name_segment, if_neg Bool.false_ne_true]
      cases hst : success status with
      | true =>
        rw [if_pos rfl]
        exact ⟨past, f, h.uploads hin hfile _ rfl rfl rfl rfl rfl⟩
      | false =>
        rw [if_neg Bool.false_ne_true]
        exact ⟨past, f, kept_refuse h hin status now (hno hst)⟩
    | playlist lo hi size =>
      rw [name_playlist, if_pos rfl]
      cases sending with
      | none => 
        refine ⟨past, f, kept_refuse h hin ngxError now (fun hmedia => ?_)⟩
        rw [hfile, name_playlist] at hmedia
        contradiction
      | some sent =>
        cases sent with
        | asIs => exact absurd hin (fun hs => h.whole item hs)
        | rewritten entries gaps =>
          dsimp only
          cases hst : success status with
          | false =>
            rw [if_neg Bool.false_ne_true]
            exact ⟨past, f, kept_refuse h hin status now (hno hst)⟩
          | true =>
            rw [if_pos rfl]
            have hnew : ∀ k < w.total, stream.name k ∈ w.push.missing → k < hi := by
              have := hyes hst
              dsimp only at this
              rwa [hfile] at this
            unfold accept
            have haccept := h.accepts hin hfile rfl hnew
              { idle w.push with
                gaps := w.push.gaps + gaps
                missing := w.push.missing.filter (· ∈ entries.map Entry.uri)
                sent := w.push.sent.drop (expiry w.push.sent (entries.map Entry.uri)) }
              rfl rfl rfl rfl rfl
            have hdeleted := kept_deletes stream _ _
              (if w.push.deleteExpired then
                (w.push.sent.take (expiry w.push.sent (entries.map Entry.uri))).take deletesMax
                else []) answers _ haccept
            exact ⟨_, _, hdeleted.counters _ rfl rfl rfl rfl rfl⟩

theorem kept_step (h : Kept stream w) {c : Call} (hh : Honest stream w c) :
    Kept stream (step stream w c) := by
  cases c with
  | sealSegment opening => exact kept_seal_segment h hh
  | sealPlaylist leaving size opening => exact kept_seal_playlist h hh
  | take now => exact kept_take h now
  | read whole => exact kept_read h whole hh
  | answer status now answers => exact kept_answer h hh

theorem kept_join (stream : Stream) (window : ℕ) (deleteExpired : Bool) (budgetMs total leaving : ℕ) :
    Kept stream (join window deleteExpired budgetMs total leaving) := by
  refine ⟨total, 0, Nat.min_le_right _ _, ?_, List.Pairwise.nil, ?_, Or.inl ?_, ?_, ?_, ?_⟩
  · exact fun file hfile => absurd hfile List.not_mem_nil
  · exact fun k hk => Or.inr (Or.inr (Or.inr hk))
  · exact ⟨rfl, fun flight hflight => by contradiction,
      fun k hk => absurd hk List.not_mem_nil, Nat.le_refl _⟩
  · exact fun item entries gaps hitem => by contradiction
  · exact fun item hitem => by contradiction
  · exact fun i entries hi => by simp [join] at hi

/-- In every run of honest calls, an accepted playlist lists without a gap only what the remote
had taken before it. -/
theorem playlists_truthful (stream : Stream) (window : ℕ) (deleteExpired : Bool)
    (budgetMs total leaving : ℕ) (calls : List Call)
    (h : StepRun.Meets (step stream) (Honest stream)
      (join window deleteExpired budgetMs total leaving) calls) :
    Truthful (calls.foldl (step stream) (join window deleteExpired budgetMs total leaving)).log := by
  obtain ⟨past, f, hfinal⟩ := StepRun.invariant_of_meets (I := Kept stream)
    (fun _ _ hk hh => kept_step hk hh) (kept_join stream window deleteExpired budgetMs total leaving)
    h
  exact hfinal.truth

theorem media_name (head : Str) : isPlaylist (head ++ ascii ".ts") = false := by
  have hts : ascii ".ts" = [46, 116, 115] := rfl
  rw [isPlaylist, decide_eq_false_iff_not]
  rintro ⟨hlen, htail⟩
  rw [hts] at hlen htail
  have hlast := congrArg List.getLast? htail
  rw [List.getLast?_map, List.getLast?_drop, if_neg (by omega), List.getLast?_append] at hlast
  have hlower : lower 115 = 56 := Option.some.inj hlast
  exact absurd hlower (by decide)

def clip : Stream where
  name := fun k => ascii "seg-" ++ decimal k ++ ascii ".ts"
  playlistName := ascii "index.m3u8"
  distinct := by
    intro a b h
    apply decimal_injective
    simpa using h
  named := fun _ => List.append_ne_nil_of_right_ne_nil _ (by decide +kernel)
  media := fun _ => media_name _
  listing := by decide +kernel

instance (stream : Stream) (w : World) (file : File) :
    Decidable (NoneMissingBehind stream w file) :=
  match file with
  | .segment _ => inferInstanceAs (Decidable True)
  | .playlist _ _ _ => inferInstanceAs (Decidable (∀ k < w.total, _ → _))

instance (stream : Stream) (push : Push) : Decidable (Room stream push) :=
  inferInstanceAs (Decidable (_ → _))

instance (stream : Stream) (w : World) (c : Call) : Decidable (Honest stream w c) :=
  match c with
  | .sealSegment _ => inferInstanceAs (Decidable (_ ∧ _ ∧ _))
  | .sealPlaylist _ _ _ => inferInstanceAs (Decidable (_ → _))
  | .take _ => inferInstanceAs (Decidable True)
  | .read _ => inferInstanceAs (Decidable (∀ flight ∈ w.push.inflight, _))
  | .answer _ _ _ => inferInstanceAs (Decidable (∀ flight ∈ w.push.inflight, _))

def refusedOnce : List Call :=
  [.sealSegment .opened, .take 1, .answer 500 3000000001 [], .sealSegment .opened,
    .take 3000000002, .answer 200 3000000003 [], .sealPlaylist 0 200 .opened,
    .take 3000000004, .read true, .answer 200 3000000005 []]

theorem playlists_truthful_gap :
    Truthful (refusedOnce.foldl (step clip) (join 5 false 2000 0 0)).log ∧
      .accepted [⟨clip.name 0, true⟩, ⟨clip.name 1, false⟩] ∈
        (refusedOnce.foldl (step clip) (join 5 false 2000 0 0)).log :=
  ⟨playlists_truthful clip 5 false 2000 0 0 refusedOnce (by decide +kernel), by decide +kernel⟩

/-- The first segment is in flight while the queue fills; the remote asks for another try, and
there is no room for it. -/
def retryIntoFullQueue : List Call :=
  [.sealSegment .opened, .take 1, .sealPlaylist 0 200 .opened, .sealSegment .opened] ++
    (List.replicate 31 [.sealPlaylist 0 200 .opened, .sealSegment .opened]).flatten ++
    [.answer 500 2 [], .take 3, .read true, .answer 200 4 []]

/-- The playlist behind that segment is accepted and lists it. -/
theorem lost_retry_listed :
    ¬ Truthful (retryIntoFullQueue.foldl (step clip) (join 5 false 2000 0 0)).log := by
  intro h
  have hlisted := h 0 [⟨clip.name 0, false⟩] (by decide +kernel) ⟨clip.name 0, false⟩
    List.mem_cons_self rfl
  rw [List.take_zero] at hlisted
  contradiction

end HlsTruth

import NginxMedia.HlsTruth

/-! What an HLS push destination deletes. The segments that it remembers, the one in flight and
those that wait stand in the order in which they were sealed, and a playlist lists a stretch of
that order: what stands in front of the first remembered segment that is listed, is not. -/
namespace HlsExpiry

open HlsPush
open HlsTruth (names mem_names pipeline pipeline_flight pipeline_take pipeline_queued queued idle
  setName_short name_segment name_playlist entries_uris names_drop clip)

variable {stream : Stream} {push : Push} {w : World} {ks : List ℕ} {log : List Event}

/-- The playlist that the remote has. -/
def lastAccepted (log : List Event) : Option (List Entry) :=
  log.foldl (fun last event =>
    match event with
    | .accepted entries => some entries
    | _ => last) none

@[simp] theorem lastAccepted_accepted (log : List Event) (entries : List Entry) :
    lastAccepted (log ++ [.accepted entries]) = some entries := by
  simp [lastAccepted]

@[simp] theorem lastAccepted_deletion (log : List Event) (uri : Str) :
    lastAccepted (log ++ [.deletion uri]) = lastAccepted log := by
  simp [lastAccepted]

def Spared (log : List Event) : Prop :=
  ∀ i uri, log[i]? = some (.deletion uri) →
    ∃ entries, lastAccepted (log.take i) = some entries ∧ uri ∉ entries.map Entry.uri

def Unlisted (log : List Event) (uri : Str) : Prop :=
  ∃ before entries after, log = before ++ .accepted entries :: after ∧
    .uploaded uri ∈ before ∧ uri ∉ entries.map Entry.uri

def NoneForgotten (w : World) : Prop :=
  ∀ uri, Unlisted w.log uri → .deletion uri ∈ w.log ∨ uri ∈ w.push.sent

theorem spared_concat {event : Event} (h : Spared log)
    (hevent : ∀ uri, event = .deletion uri →
      ∃ entries, lastAccepted log = some entries ∧ uri ∉ entries.map Entry.uri) :
    Spared (log ++ [event]) := by
  intro i uri hi
  rcases Nat.lt_trichotomy i log.length with hlt | rfl | hgt
  · rw [List.getElem?_append_left hlt] at hi
    rw [List.take_append_of_le_length hlt.le]
    exact h i uri hi
  · rw [List.getElem?_concat_length] at hi
    rw [List.take_left]
    exact hevent uri (Option.some.inj hi)
  · rw [List.getElem?_eq_none (by simp only [List.length_append, List.length_singleton]; omega)]
      at hi
    contradiction

theorem Spared.accepted (h : Spared log) (entries : List Entry) :
    Spared (log ++ [.accepted entries]) :=
  spared_concat h fun _ hevent => by cases hevent

theorem spared_deletions (uris : List Str) {entries : List Entry} (h : Spared log)
    (hlast : lastAccepted log = some entries) (hout : ∀ uri ∈ uris, uri ∉ entries.map Entry.uri) :
    Spared (log ++ uris.map Event.deletion) := by
  induction uris generalizing log with
  | nil => simpa using h
  | cons uri rest ih =>
    have hone : Spared (log ++ [.deletion uri]) := spared_concat h fun other heq =>
      ⟨entries, hlast, Event.deletion.inj heq ▸ hout uri List.mem_cons_self⟩
    have hrest := ih hone ((lastAccepted_deletion log uri).trans hlast)
      fun other hother => hout other (List.mem_cons_of_mem _ hother)
    rwa [List.append_assoc] at hrest

def segments (files : List File) : List ℕ :=
  files.filterMap fun file =>
    match file with
    | .segment k => some k
    | .playlist _ _ _ => none

@[simp] theorem segments_segment (k : ℕ) (files : List File) :
    segments (.segment k :: files) = k :: segments files := rfl

@[simp] theorem segments_playlist (lo hi size : ℕ) (files : List File) :
    segments (.playlist lo hi size :: files) = segments files := rfl

theorem segments_append (a b : List File) : segments (a ++ b) = segments a ++ segments b :=
  List.filterMap_append

/-- The segments `ks` are remembered, those that follow are on their way, and nothing has
overtaken anything. -/
structure Ordered (stream : Stream) (w : World) (ks : List ℕ) : Prop where
  sent : w.push.sent = ks.map stream.name
  sorted : (ks ++ segments (pipeline w.push)).Pairwise (· < ·)
  sealed : ∀ k ∈ ks ++ segments (pipeline w.push), k < w.total
  short : ∀ k ∈ segments (pipeline w.push), (stream.name k).length < nameMax
  body : ∀ item entries gaps, w.push.inflight = some ⟨item, some (.rewritten entries gaps)⟩ →
    ∃ lo hi, entries.map Entry.uri = names stream lo hi
  deletes : w.push.deleteExpired = true
  spared : Spared w.log
  known : ∀ uri, .uploaded uri ∈ w.log → .deletion uri ∈ w.log ∨ uri ∈ w.push.sent

theorem listed_of_idle (stream : Stream) (item : Item) (entries : List Entry) (gaps : ℕ)
    (h : (none : Option Inflight) = some ⟨item, some (.rewritten entries gaps)⟩) :
    ∃ lo hi, entries.map Entry.uri = names stream lo hi := by
  cases h

theorem Ordered.narrow (h : Ordered stream w ks) (push : Push)
    (hsent : push.sent = w.push.sent) (hdeletes : push.deleteExpired = w.push.deleteExpired)
    (hpipe : (pipeline push).Sublist (pipeline w.push))
    (hbody : ∀ item entries gaps, push.inflight = some ⟨item, some (.rewritten entries gaps)⟩ →
      ∃ lo hi, entries.map Entry.uri = names stream lo hi) :
    Ordered stream { w with push := push } ks := by
  have hsub : (segments (pipeline push)).Sublist (segments (pipeline w.push)) :=
    hpipe.filterMap _
  exact ⟨hsent.trans h.sent, h.sorted.sublist (hsub.append_left ks),
    fun k hk => h.sealed k ((hsub.append_left ks).subset hk),
    fun k hk => h.short k (hsub.subset hk), hbody, hdeletes.trans h.deletes, h.spared,
    fun uri hup => hsent ▸ h.known uri hup⟩

theorem expiry_eq {lo hi m : ℕ} {older newer : List ℕ}
    (hsorted : (older ++ m :: newer).Pairwise (· < ·)) (hm : lo ≤ m ∧ m < hi)
    (hout : ∀ j ∈ older, ¬ (lo ≤ j ∧ j < hi)) :
    expiry ((older ++ m :: newer).map stream.name) (names stream lo hi) = older.length := by
  have hsplit : names stream lo hi =
      names stream lo m ++ stream.name m :: names stream (m + 1) hi := by
    have happend : List.range' lo (m - lo) ++ List.range' (lo + (m - lo)) (hi - (m + 1) + 1) =
        List.range' lo (m - lo + (hi - (m + 1) + 1)) := List.range'_append_1
    rw [show lo + (m - lo) = m by omega,
      show m - lo + (hi - (m + 1) + 1) = hi - lo by omega, List.range'_succ] at happend
    rw [names, ← happend, List.map_append, List.map_cons]
    rfl
  have hfind : (names stream lo hi).find?
      (· ∈ (older ++ m :: newer).map stream.name) = some (stream.name m) := by
    rw [List.find?_eq_some_iff_append]
    refine ⟨by simp, _, _, hsplit, ?_⟩
    intro uri huri
    obtain ⟨j, hj, rfl⟩ := List.mem_map.mp huri
    rw [List.mem_range'_1] at hj
    rw [Bool.not_eq_true', decide_eq_false_iff_not, List.mem_map_of_injective stream.distinct]
    intro hmem
    rcases List.mem_append.mp hmem with holder | hnewer
    · exact hout j holder (by omega)
    · have := (List.pairwise_append.mp hsorted).2.1
      rcases List.mem_cons.mp hnewer with rfl | hnewer
      · omega
      · have := (List.pairwise_cons.mp this).1 j hnewer
        omega
  unfold expiry
  rw [hfind]
  dsimp only
  have hnot : stream.name m ∉ older.map stream.name := by
    rw [List.mem_map_of_injective stream.distinct]
    exact fun hmem => hout m hmem hm
  rw [List.map_append, List.idxOf_append_of_notMem hnot, List.map_cons, List.idxOf_cons_self,
    List.length_map, Nat.add_zero]

/-- What the playlist lists expires nothing, or all that is older than one of its segments. -/
theorem expiry_cases (stream : Stream) (hsorted : ks.Pairwise (· < ·)) (lo hi : ℕ) :
    expiry (ks.map stream.name) (names stream lo hi) = 0 ∨
      ∃ older m newer, ks = older ++ m :: newer ∧ (lo ≤ m ∧ m < hi) ∧
        (∀ j ∈ older, ¬ (lo ≤ j ∧ j < hi)) ∧
        expiry (ks.map stream.name) (names stream lo hi) = older.length := by
  cases hfind : ks.find? (fun j => decide (lo ≤ j ∧ j < hi)) with
  | some m =>
    obtain ⟨hm, older, newer, rfl, hout⟩ := List.find?_eq_some_iff_append.mp hfind
    have hm : lo ≤ m ∧ m < hi := of_decide_eq_true hm
    have hout : ∀ j ∈ older, ¬ (lo ≤ j ∧ j < hi) := fun j hj => by
      simpa only [Bool.not_eq_true', decide_eq_false_iff_not] using hout j hj
    exact Or.inr ⟨older, m, newer, rfl, hm, hout, expiry_eq hsorted hm hout⟩
  | none =>
    left
    have hnone : (names stream lo hi).find? (· ∈ ks.map stream.name) = none := by
      rw [List.find?_eq_none]
      intro uri huri
      obtain ⟨j, hj, rfl⟩ := List.mem_map.mp huri
      rw [decide_eq_true_iff, List.mem_map_of_injective stream.distinct]
      intro hmem
      have := List.find?_eq_none.mp hfind j hmem
      rw [List.mem_range'_1] at hj
      exact this (decide_eq_true (by omega))
    rw [expiry, hnone]

theorem Ordered.makeRoom (h : Ordered stream w ks) :
    Ordered stream { w with
      push := if w.push.queue.length = queueMax then dropOldest stream w.push else w.push } ks := by
  split_ifs
  · cases hq : w.push.queue with
    | nil =>
      have hsame : dropOldest stream w.push = w.push := by rw [dropOldest, hq]
      rw [hsame]
      exact h
    | cons oldest rest =>
      have hpipe : (pipeline { w.push with queue := rest }).Sublist (pipeline w.push) := by
        unfold pipeline
        rw [hq, List.map_cons]
        exact (List.sublist_cons_self _ _).append_left _
      unfold dropOldest
      rw [hq]
      dsimp only
      split_ifs
      · exact h.narrow _ rfl rfl hpipe h.body
      · exact h.narrow _ rfl rfl hpipe h.body
  · exact h

theorem Ordered.enqueue (h : Ordered stream w ks) (file : File) {total : ℕ} (listed : ℕ)
    (hle : w.total ≤ total)
    (hnew : ∀ k ∈ segments [file], w.total ≤ k ∧ k < total ∧ (stream.name k).length < nameMax) :
    Ordered stream ⟨HlsPush.enqueue stream w.push file, total, listed, w.log⟩ ks := by
  have hroom := h.makeRoom
  unfold HlsPush.enqueue
  dsimp only
  generalize (if w.push.queue.length = queueMax then dropOldest stream w.push else w.push) = push
    at hroom ⊢
  have hpipe : segments (pipeline (queued push file)) =
      segments (pipeline push) ++ segments [file] := by
    rw [pipeline_queued, segments_append]
  refine ⟨hroom.sent, ?_, ?_, ?_, hroom.body, hroom.deletes, hroom.spared, hroom.known⟩
  · change (ks ++ segments (pipeline (queued push file))).Pairwise (· < ·)
    rw [hpipe, ← List.append_assoc, List.pairwise_append]
    refine ⟨hroom.sorted, ?_, fun j hj k hk => (hroom.sealed j hj).trans_le (hnew k hk).1⟩
    cases file with
    | segment k => exact List.pairwise_singleton _ _
    | playlist lo hi size => exact List.Pairwise.nil
  · intro k hk
    change k ∈ ks ++ segments (pipeline (queued push file)) at hk
    rw [hpipe, ← List.append_assoc] at hk
    rcases List.mem_append.mp hk with hk | hk
    · exact (hroom.sealed k hk).trans_le hle
    · exact (hnew k hk).2.1
  · intro k hk
    change k ∈ segments (pipeline (queued push file)) at hk
    rw [hpipe] at hk
    rcases List.mem_append.mp hk with hk | hk
    · exact hroom.short k hk
    · exact (hnew k hk).2.2

theorem Ordered.later (h : Ordered stream w ks) (push : Push) {total : ℕ} (listed : ℕ)
    (hle : w.total ≤ total) (hsent : push.sent = w.push.sent)
    (hdeletes : push.deleteExpired = w.push.deleteExpired) (hqueue : push.queue = w.push.queue)
    (hin : push.inflight = w.push.inflight) :
    Ordered stream ⟨push, total, listed, w.log⟩ ks := by
  have hpipe : pipeline push = pipeline w.push := by rw [pipeline, hin, hqueue, pipeline]
  have hnarrow := h.narrow push hsent hdeletes (hpipe ▸ List.Sublist.refl _) (hin ▸ h.body)
  exact ⟨hnarrow.sent, hnarrow.sorted, fun k hk => (hnarrow.sealed k hk).trans_le hle,
    hnarrow.short, hnarrow.body, hnarrow.deletes, hnarrow.spared, hnarrow.known⟩

theorem Ordered.sealed_file (h : Ordered stream w ks) (file : File) (opening : Opening)
    {total : ℕ} (listed : ℕ) (hle : w.total ≤ total)
    (hnew : ∀ k ∈ segments [file], w.total ≤ k ∧ k < total ∧ (stream.name k).length < nameMax) :
    Ordered stream ⟨pushSealed stream w.push file opening, total, listed, w.log⟩ ks := by
  cases opening with
  | opened => exact h.enqueue file listed hle hnew
  | gone => exact h.later _ listed hle rfl rfl rfl rfl
  | error => exact h.later _ listed hle rfl rfl rfl rfl

theorem Ordered.take (h : Ordered stream w ks) (now : ℕ) :
    Ordered stream { w with push := HlsPush.take stream w.push now } ks := by
  unfold HlsPush.take
  cases hq : w.push.queue with
  | nil => exact h
  | cons item rest =>
    dsimp only
    by_cases hwait : w.push.inflight.isSome ∨ item.notBeforeNs ≠ 0 ∧ item.notBeforeNs > now
    · rw [if_pos hwait]
      exact h
    · rw [if_neg hwait]
      split
      · refine h.narrow _ rfl rfl ?_ h.body
        unfold pipeline
        rw [hq, List.map_cons]
        exact (List.sublist_cons_self _ _).append_left _
      have hidle : w.push.inflight = none := by
        cases hin : w.push.inflight with
        | none => rfl
        | some flight =>
          rw [hin] at hwait
          exact absurd (Or.inl rfl) hwait
      refine h.narrow _ rfl rfl ?_ fun _ _ _ hbody => by cases hbody
      rw [pipeline_take hq hidle]
      exact List.Sublist.refl _

theorem Ordered.read (h : Ordered stream w ks) (whole : Bool) :
    Ordered stream { w with push := HlsPush.read stream w.push whole } ks := by
  unfold HlsPush.read
  split
  · next item hin =>
    split_ifs
    · refine h.narrow _ rfl rfl ?_ ?_
      · rw [pipeline_flight hin, pipeline_flight rfl]
      · intro _ entries gaps hbody
        dsimp only at hbody
        unfold HlsPush.body at hbody
        split_ifs at hbody
        · cases hbody
        · cases hbody
          cases item.file with
          | segment k => exact ⟨0, 0, by simp [rewrite, File.entries, names]⟩
          | playlist lo hi size =>
            refine ⟨lo + removed (opts w.push) (names stream lo hi), hi, ?_⟩
            rw [← names_drop, rewrite, List.map_map, ← entries_uris stream lo hi size,
              ← List.map_drop]
            rfl
    · exact h
  · exact h

theorem Ordered.refuse (h : Ordered stream w ks) {flight : Inflight}
    (hin : w.push.inflight = some flight) (status : ℤ) (now : ℕ) :
    Ordered stream { w with push := refuse stream (idle w.push) flight.item status now } ks := by
  have hpipe := pipeline_flight hin
  have hdrop : (pipeline (idle w.push)).Sublist (pipeline w.push) := by
    rw [hpipe]
    exact List.sublist_cons_self _ _
  unfold HlsPush.refuse
  split_ifs
  · refine h.narrow _ rfl rfl ?_ (listed_of_idle stream)
    rw [hpipe]
    exact List.Sublist.refl _
  · exact h.narrow _ rfl rfl hdrop (listed_of_idle stream)
  · exact h.narrow _ rfl rfl hdrop (listed_of_idle stream)
  · exact h.narrow _ rfl rfl hdrop (listed_of_idle stream)

theorem Ordered.upload (h : Ordered stream w ks) {item : Item} {sending : Option Body} {k : ℕ}
    (hin : w.push.inflight = some ⟨item, sending⟩) (hfile : item.file = .segment k)
    (hroom : w.push.sent.length < sentMax) (missing : List Str) (uploaded : ℕ) :
    Ordered stream { w with
      push := { sentAdd (idle w.push) (stream.name k) with
        missing := missing
        uploaded := uploaded }
      log := w.log ++ [.uploaded (stream.name k)] } (ks ++ [k]) := by
  have hpipe := pipeline_flight hin
  rw [hfile] at hpipe
  have hline : ks ++ [k] ++ segments (w.push.queue.map Item.file) =
      ks ++ segments (pipeline w.push) := by
    rw [hpipe, segments_segment, List.append_assoc, List.singleton_append]
  have hsent : (sentAdd (idle w.push) (stream.name k)).sent = (ks ++ [k]).map stream.name := by
    have hshort : (stream.name k).length < nameMax := h.short k (by simp [hpipe])
    rw [sentAdd, if_neg (by exact hroom.ne), setName_short hshort, List.map_append]
    exact congrArg (· ++ [stream.name k]) h.sent
  have hspared : Spared (w.log ++ [.uploaded (stream.name k)]) :=
    spared_concat h.spared fun uri hevent => by cases hevent
  refine ⟨hsent, ?_, ?_, ?_, listed_of_idle stream, h.deletes, hspared, ?_⟩
  · exact hline ▸ h.sorted
  · exact fun j hj => h.sealed j (hline ▸ hj)
  · intro j hj
    apply h.short j
    rw [hpipe, segments_segment]
    exact List.mem_cons_of_mem k hj
  · intro uri hup
    dsimp only at hup ⊢
    rw [hsent]
    rcases List.mem_append.mp hup with hup | hup
    · rcases h.known uri hup with hgone | hin
      · exact Or.inl (List.mem_append_left _ hgone)
      · rw [h.sent] at hin
        rw [List.map_append]
        exact Or.inr (List.mem_append_left _ hin)
    · cases List.mem_singleton.mp hup
      exact Or.inr (List.mem_map_of_mem (List.mem_append_right _ List.mem_cons_self))

theorem Ordered.acceptAsIs (h : Ordered stream w ks) {flight : Inflight}
    (hin : w.push.inflight = some flight) (entries : List Entry) (uploaded : ℕ) :
    Ordered stream { w with
      push := { idle w.push with uploaded := uploaded }
      log := w.log ++ [.accepted entries] } ks := by
  have hidle := h.narrow { idle w.push with uploaded := uploaded } rfl rfl
    (by rw [pipeline_flight hin]; exact List.sublist_cons_self _ _) (listed_of_idle stream)
  refine ⟨hidle.sent, hidle.sorted, hidle.sealed, hidle.short, hidle.body, hidle.deletes,
    h.spared.accepted entries, fun uri hup => ?_⟩
  have hold : .uploaded uri ∈ w.log := by simpa using hup
  exact (h.known uri hold).imp_left (List.mem_append_left _)

/-- An endpoint that takes deletions is sent all of them. -/
theorem deleteLoop_all (uris : List Str) {answers : List ℤ}
    (hyes : ∀ a ∈ answers, a ≠ 403 ∧ a ≠ 405 ∧ a ≠ 501) (push : Push) (log : List Event)
    (hon : push.deleteExpired = true) : ∃ deleted, deleteLoop push log uris answers =
      ({ push with deleted := deleted }, log ++ uris.map Event.deletion) := by
  induction uris generalizing answers push log with
  | nil => exact ⟨push.deleted, by simp [deleteLoop]⟩
  | cons uri rest ih =>
    have hhead : ¬ (answers.headD ngxError = 403 ∨ answers.headD ngxError = 405 ∨
        answers.headD ngxError = 501) := by
      cases answers with
      | nil => decide
      | cons a answers =>
        obtain ⟨h3, h5, h1⟩ := hyes a List.mem_cons_self
        rintro (ha | ha | ha)
        · exact h3 ha
        · exact h5 ha
        · exact h1 ha
    have htail : ∀ a ∈ answers.drop 1, a ≠ 403 ∧ a ≠ 405 ∧ a ≠ 501 :=
      fun a ha => hyes a (List.mem_of_mem_drop ha)
    have hlog : log ++ (uri :: rest).map Event.deletion =
        (log ++ [.deletion uri]) ++ rest.map Event.deletion := by simp
    rw [deleteLoop, if_neg (by rw [hon]; nofun), hlog]
    dsimp only
    rw [if_neg hhead]
    split_ifs
    · exact ih htail { push with deleted := push.deleted + 1 } _ hon
    · exact ih htail push _ hon

theorem Ordered.accept (h : Ordered stream w ks) {item : Item} {entries : List Entry} {gaps : ℕ}
    (hin : w.push.inflight = some ⟨item, some (.rewritten entries gaps)⟩) {answers : List ℤ}
    (hyes : ∀ a ∈ answers, a ≠ 403 ∧ a ≠ 405 ∧ a ≠ 501)
    (hfew : (∃ uri ∈ w.push.sent, uri ∈ entries.map Entry.uri) →
      (w.push.sent.takeWhile (· ∉ entries.map Entry.uri)).length ≤ deletesMax) (uploaded : ℕ) :
    ∃ ks', Ordered stream { w with
      push := { (accept (idle w.push) w.log entries gaps answers).1 with uploaded := uploaded }
      log := (accept (idle w.push) w.log entries gaps answers).2 } ks' := by
  obtain ⟨lo, hi, huris⟩ := h.body _ _ _ hin
  have hsorted := (List.pairwise_append.mp h.sorted).1
  obtain ⟨due, hdue⟩ : ∃ due, due = expiry w.push.sent (entries.map Entry.uri) := ⟨_, rfl⟩
  obtain ⟨hout, hle⟩ : (∀ uri ∈ w.push.sent.take due, uri ∉ entries.map Entry.uri) ∧
      due ≤ deletesMax := by
    rw [huris] at hdue hfew ⊢
    rw [h.sent] at hdue hfew ⊢
    rcases expiry_cases stream hsorted lo hi with hnone | ⟨older, m, newer, rfl, hm,
      hunlisted, hlength⟩
    · rw [hdue, hnone, List.take_zero]
      exact ⟨fun _ huri => absurd huri List.not_mem_nil, Nat.zero_le _⟩
    · have hfront : ∀ uri ∈ older.map stream.name, uri ∉ names stream lo hi := by
        intro uri huri
        obtain ⟨j, hj, rfl⟩ := List.mem_map.mp huri
        rw [mem_names]
        exact hunlisted j hj
      rw [hdue, hlength, List.map_append, ← List.length_map (f := stream.name), List.take_left]
      refine ⟨hfront, ?_⟩
      have hcount := hfew ⟨stream.name m, by simp, (mem_names stream).mpr hm⟩
      rw [List.map_append, List.takeWhile_append_of_pos
        (fun uri huri => decide_eq_true (hfront uri huri)), List.map_cons,
        List.takeWhile_cons_of_neg, List.append_nil] at hcount
      · exact hcount
      · rw [decide_eq_true_iff, not_not, mem_names]
        exact hm
  have hexpired : (if w.push.deleteExpired then (w.push.sent.take due).take deletesMax else []) =
      w.push.sent.take due := by
    rw [if_pos h.deletes, List.take_take, Nat.min_eq_right hle]
  obtain ⟨deleted, hdeleted⟩ := deleteLoop_all
    (if w.push.deleteExpired then (w.push.sent.take due).take deletesMax else []) hyes
    { idle w.push with
      gaps := w.push.gaps + gaps
      missing := w.push.missing.filter (· ∈ entries.map Entry.uri)
      sent := w.push.sent.drop due } (w.log ++ [.accepted entries]) h.deletes
  rw [hdue] at hdeleted
  have haccept : HlsPush.accept (idle w.push) w.log entries gaps answers = _ := hdeleted
  rw [haccept, ← hdue, hexpired]
  have hpipe : (segments (pipeline (idle w.push))).Sublist (segments (pipeline w.push)) := by
    rw [pipeline_flight hin]
    exact (List.sublist_cons_self _ _).filterMap _
  have hline : (ks.drop due ++ segments (pipeline (idle w.push))).Sublist
      (ks ++ segments (pipeline w.push)) := (List.drop_sublist due ks).append hpipe
  refine ⟨ks.drop due, ?_, h.sorted.sublist hline, fun k hk => h.sealed k (hline.subset hk),
    fun k hk => h.short k (hpipe.subset hk), listed_of_idle stream, h.deletes,
    spared_deletions _ (h.spared.accepted entries) (lastAccepted_accepted _ _) hout, ?_⟩
  · rw [List.map_drop, ← h.sent]
  · intro uri hup
    dsimp only at hup ⊢
    have hold : .uploaded uri ∈ w.log := by
      rcases List.mem_append.mp hup with hup | hup
      · simpa using hup
      · obtain ⟨_, _, hevent⟩ := List.mem_map.mp hup
        contradiction
    rcases h.known uri hold with hgone | hsent
    · exact Or.inl (by simp [hgone])
    · rw [← List.take_append_drop due w.push.sent] at hsent
      rcases List.mem_append.mp hsent with hsent | hsent
      · exact Or.inl (List.mem_append_right _ (List.mem_map_of_mem hsent))
      · exact Or.inr hsent

def Affords (push : Push) (answers : List ℤ) : File → Option Body → Prop
  | .segment _, _ => push.sent.length < sentMax
  | .playlist _ _ _, some (.rewritten entries _) =>
    (∀ a ∈ answers, a ≠ 403 ∧ a ≠ 405 ∧ a ≠ 501) ∧
      ((∃ uri ∈ push.sent, uri ∈ entries.map Entry.uri) →
        (push.sent.takeWhile (· ∉ entries.map Entry.uri)).length ≤ deletesMax)
  | .playlist _ _ _, _ => True

def Remembers (stream : Stream) (w : World) : Call → Prop
  | .sealSegment _ => (stream.name w.total).length < nameMax
  | .answer status _ answers => success status = true → ∀ flight ∈ w.push.inflight,
    Affords w.push answers flight.item.file flight.body
  | _ => True

theorem ordered_answer (h : Ordered stream w ks) {status : ℤ} {now : ℕ} {answers : List ℤ}
    (hr : Remembers stream w (.answer status now answers)) :
    ∃ ks', Ordered stream (step stream w (.answer status now answers)) ks' := by
  cases hin : w.push.inflight with
  | none =>
    have hsame : answer stream w.push w.log status now answers = (w.push, w.log) := by
      rw [answer, hin]
    rw [step, hsame]
    exact ⟨ks, h⟩
  | some flight =>
    obtain ⟨item, sending⟩ := flight
    rw [step, answer, hin]
    dsimp only
    cases hfile : item.file with
    | segment k =>
      rw [name_segment, if_neg Bool.false_ne_true]
      cases hst : success status with
      | true =>
        have hroom := hr hst _ (Option.mem_def.mpr hin)
        rw [hfile] at hroom
        rw [if_pos rfl]
        exact ⟨_, h.upload hin hfile hroom _ _⟩
      | false =>
        rw [if_neg Bool.false_ne_true]
        exact ⟨ks, h.refuse hin status now⟩
    | playlist lo hi size =>
      rw [name_playlist, if_pos rfl]
      cases sending with
      | none => exact ⟨ks, h.refuse hin ngxError now⟩
      | some sent =>
        cases hst : success status with
        | false =>
          cases sent with
          | asIs => exact ⟨ks, h.refuse hin status now⟩
          | rewritten entries gaps => exact ⟨ks, h.refuse hin status now⟩
        | true =>
          cases sent with
          | asIs => exact ⟨ks, h.acceptAsIs hin _ _⟩
          | rewritten entries gaps =>
            have hknown := hr hst _ (Option.mem_def.mpr hin)
            rw [hfile] at hknown
            exact h.accept hin hknown.1 hknown.2 _

theorem ordered_step (h : Ordered stream w ks) {c : Call} (hr : Remembers stream w c) :
    ∃ ks', Ordered stream (step stream w c) ks' := by
  cases c with
  | sealSegment opening =>
    refine ⟨ks, h.sealed_file (.segment w.total) opening _ (Nat.le_succ _) fun k hk => ?_⟩
    cases List.mem_singleton.mp hk
    exact ⟨Nat.le_refl _, Nat.lt_succ_self _, hr⟩
  | sealPlaylist leaving size opening =>
    exact ⟨ks, h.sealed_file (.playlist (w.from leaving) w.total size) opening _ (Nat.le_refl _)
      fun k hk => absurd hk List.not_mem_nil⟩
  | take now => exact ⟨ks, h.take now⟩
  | read whole => exact ⟨ks, h.read whole⟩
  | answer status now answers => exact ordered_answer h hr

theorem ordered_join (stream : Stream) (window budgetMs total leaving : ℕ) :
    Ordered stream (join window true budgetMs total leaving) [] :=
  ⟨rfl, List.Pairwise.nil, fun _ hk => absurd hk List.not_mem_nil,
    fun _ hk => absurd hk List.not_mem_nil, listed_of_idle stream, rfl,
    fun _ _ hi => by simp [join] at hi, fun _ hup => absurd hup List.not_mem_nil⟩

/-- While the destination remembers what the remote holds, a deletion names a segment that the
remote's playlist does not list, and no segment that has left the playlist is forgotten. -/
theorem expired_deleted (stream : Stream) (window budgetMs total leaving : ℕ) (calls : List Call)
    (h : StepRun.Meets (step stream) (Remembers stream)
      (join window true budgetMs total leaving) calls) :
    Spared (calls.foldl (step stream) (join window true budgetMs total leaving)).log ∧
      NoneForgotten (calls.foldl (step stream) (join window true budgetMs total leaving)) := by
  obtain ⟨ks, hfinal⟩ := StepRun.invariant_of_meets (I := fun w => ∃ ks, Ordered stream w ks)
    (fun _ _ ⟨_, ho⟩ hr => ordered_step ho hr)
    ⟨[], ordered_join stream window budgetMs total leaving⟩ h
  refine ⟨hfinal.spared, fun uri hunlisted => ?_⟩
  obtain ⟨before, entries, after, hlog, hup, -⟩ := hunlisted
  apply hfinal.known uri
  rw [hlog]
  exact List.mem_append_left _ hup

def uploads (n : ℕ) (status : ℤ) (answers : List ℤ) : List Call :=
  (List.replicate n [.sealSegment .opened, .take 1, .answer 200 1 [], .sealPlaylist 0 200 .opened,
    .take 1, .read true, .answer status 1 answers]).flatten

instance (push : Push) (answers : List ℤ) (file : File) (body : Option Body) :
    Decidable (Affords push answers file body) :=
  match file, body with
  | .segment _, _ => inferInstanceAs (Decidable (_ < _))
  | .playlist _ _ _, some (.rewritten _ _) => inferInstanceAs (Decidable (_ ∧ (_ → _)))
  | .playlist _ _ _, some .asIs => inferInstanceAs (Decidable True)
  | .playlist _ _ _, none => inferInstanceAs (Decidable True)

instance (stream : Stream) (w : World) (c : Call) : Decidable (Remembers stream w c) :=
  match c with
  | .sealSegment _ => inferInstanceAs (Decidable (_ < _))
  | .sealPlaylist _ _ _ => inferInstanceAs (Decidable True)
  | .take _ => inferInstanceAs (Decidable True)
  | .read _ => inferInstanceAs (Decidable True)
  | .answer _ _ _ => inferInstanceAs (Decidable (_ → ∀ flight ∈ w.push.inflight, _))

/-- With a window of two, each segment is deleted once two newer ones are listed. -/
theorem expired_deleted_window :
    (Spared ((uploads 4 200 [204]).foldl (step clip) (join 2 true 2000 0 0)).log ∧
      NoneForgotten ((uploads 4 200 [204]).foldl (step clip) (join 2 true 2000 0 0))) ∧
    .deletion (clip.name 1) ∈
      ((uploads 4 200 [204]).foldl (step clip) (join 2 true 2000 0 0)).log :=
  ⟨expired_deleted clip 2 2000 0 0 (uploads 4 200 [204]) (by decide +kernel), by decide +kernel⟩

/-- The remote refuses the playlists of thirteen segments and takes that of the next one. -/
def late : World :=
  (uploads 13 400 [] ++ uploads 1 200 []).foldl (step clip) (join 5 true 2000 0 0)

/-- Nine segments have left the playlist, and eight of them are deleted. -/
theorem ninth_forgotten : ¬ NoneForgotten late := by
  intro h
  obtain ⟨hlog, hup, hout, hlost⟩ :
      late.log = late.log.take 14 ++
        .accepted ((List.range' 9 5).map fun k => ⟨clip.name k, false⟩) :: late.log.drop 15 ∧
      .uploaded (clip.name 8) ∈ late.log.take 14 ∧
      clip.name 8 ∉ ((List.range' 9 5).map fun k => (⟨clip.name k, false⟩ : Entry)).map Entry.uri ∧
      ¬ (.deletion (clip.name 8) ∈ late.log ∨ clip.name 8 ∈ late.push.sent) := by
    decide +kernel
  exact hlost (h _ ⟨_, _, _, hlog, hup, hout⟩)

end HlsExpiry

import NginxMedia.RecordWriter
import Mathlib.Data.List.Nodup

/-! What a recorder leaves on the disk: the invariant of its queue, its part files and its
counters, and the two steps that break it. -/
namespace RecordWriter

open SequenceRing

def longest (slices : List Str) : ℕ := (slices.map List.length).foldr max 0

structure Recorded (conf : Conf) (s : State) : Prop where
  whole : ∃ kept : List (List Str), kept.flatten.Sublist s.accepted ∧
    s.opened.map s.files = kept.map List.flatten
  counted : s.offered = s.stats.bytesWritten + s.stats.bytesDropped
  names : s.opened.Nodup
  sizes : ∀ name ∈ s.opened, (s.files name).length ≤ conf.maxPartBytes + longest s.accepted

def Write.fails : Write → Bool
  | .wrote bytes => bytes == 0
  | .interrupted => false
  | .failed => true

/-- Steps that break nothing: a write fails only with nothing of its slice written, and neither
thread loads `bytes_dropped` while the other one is between its load and its store. -/
def Sound (conf : Conf) (s : State) : Event → Prop
  | .write result => ∀ job written, s.writer = .writing job written → result.fails = true →
      written = 0
  | .load => s.refusing = none
  | .append _ _ len =>
    full conf s len = true → ∀ bytes loaded, s.writer ≠ .dropping bytes (some loaded)
  | _ => True

instance (conf : Conf) (s : State) (e : Event) : Decidable (Sound conf s e) :=
  match e with
  | .write result =>
    match hw : s.writer with
    | .writing job written =>
      decidable_of_iff (result.fails = true → written = 0) ⟨fun h j w heq hf => by
        rw [hw] at heq
        cases heq
        exact h hf, fun h => h job written hw⟩
    | .waiting | .took _ | .dropping _ _ | .exited =>
      isTrue fun j w heq => by
        rw [hw] at heq
        cases heq
  | .load => inferInstanceAs (Decidable (s.refusing = none))
  | .append _ _ len =>
    match hw : s.writer with
    | .dropping bytes (some loaded) =>
      decidable_of_iff (¬ full conf s len = true) ⟨fun h hf => absurd hf h,
        fun h hf => h hf bytes loaded hw⟩
    | .dropping _ none | .waiting | .took _ | .writing _ _ | .exited =>
      isTrue fun _ b l heq => by
        rw [hw] at heq
        cases heq
  | .count | .take | .start _ | .store | .exit | .stop | .join => isTrue trivial

def Writer.job : Writer → List Str
  | .took job => [job]
  | .writing job _ => [job]
  | _ => []

def Writer.begun : Writer → Str
  | .writing job written => job.take written
  | _ => []

def Writer.left : Writer → ℕ
  | .took job => job.length
  | .writing job written => job.length - written
  | .dropping bytes _ => bytes
  | _ => 0

@[simp] theorem Writer.left_waiting : Writer.waiting.left = 0 := rfl

@[simp] theorem Writer.left_took (job : Str) : (Writer.took job).left = job.length := rfl

@[simp] theorem Writer.left_writing (job : Str) (written : ℕ) :
    (Writer.writing job written).left = job.length - written := rfl

@[simp] theorem Writer.left_dropping (bytes : ℕ) (loaded : Option ℕ) :
    (Writer.dropping bytes loaded).left = bytes := rfl

structure Queue (conf : Conf) (jobs : ℕ → Str) (head tail pending : ℕ) (accepted : List Str)
    (taken : ℕ) : Prop where
  ring : Represents (fun _ => True) jobs conf.maxJobs taken accepted
  spare : accepted.length < taken + conf.maxJobs
  head : head = taken % conf.maxJobs
  tail : tail = accepted.length % conf.maxJobs
  pending : pending = retained List.length taken accepted
  nonempty : ∀ slice ∈ accepted, slice ≠ []

structure Disk (conf : Conf) (files : Str → Str) (opened : List Str) (fd : Option Str)
    (partBytes parts : ℕ) (begun : Str) (kept : List (List Str)) : Prop where
  numbers : ∃ numbers : List ℕ, opened = numbers.map (partName conf.path) ∧ numbers.Nodup ∧
    ∀ n ∈ numbers, n ≤ parts
  closed : fd = none → opened.map files = kept.map List.flatten
  current : ∀ name, fd = some name → ∃ front init cur, opened = front ++ [name] ∧
    kept = init ++ [cur] ∧ front.map files = init.map List.flatten ∧
    files name = cur.flatten ++ begun ∧ partBytes = (files name).length ∧
    cur.flatten.length < conf.maxPartBytes

structure Counted (s : State) : Prop where
  bytes : s.offered = s.stats.bytesWritten + s.stats.bytesDropped + s.stats.pendingBytes +
    s.writer.left + (s.refusing.map Prod.snd).getD 0
  writer : ∀ bytes loaded, s.writer = .dropping bytes (some loaded) →
    loaded = s.stats.bytesDropped ∧ s.refusing = none
  refusing : ∀ loaded len, s.refusing = some (loaded, len) → loaded = s.stats.bytesDropped

structure Control (s : State) (taken : ℕ) : Prop where
  halted : s.stop = true → s.refusing = none
  writing : ∀ job written, s.writer = .writing job written → written < job.length ∧ s.fd ≠ none
  exited : s.writer = .exited → s.stop = true ∧ taken = s.accepted.length
  stopped : s.stopped = true → s.writer = .exited ∧ s.fd = none

structure Inv (conf : Conf) (s : State) (taken : ℕ) (kept : List (List Str)) : Prop where
  queue : Queue conf s.jobs s.head s.tail s.stats.pendingBytes s.accepted taken
  order : (kept.flatten ++ s.writer.job).Sublist (s.accepted.take taken)
  disk : Disk conf s.files s.opened s.fd s.partBytes s.stats.parts s.writer.begun kept
  sizes : ∀ part ∈ kept, part.flatten.length ≤ conf.maxPartBytes + longest s.accepted
  counted : Counted s
  control : Control s taken

variable {conf : Conf} {s : State} {taken : ℕ} {kept : List (List Str)}

@[simp] theorem longest_cons (slice : Str) (slices : List Str) :
    longest (slice :: slices) = max slice.length (longest slices) := rfl

theorem longest_le_of_mem {slices : List Str} {slice : Str} (h : slice ∈ slices) :
    slice.length ≤ longest slices := by
  induction slices with
  | nil => exact absurd h List.not_mem_nil
  | cons x slices ih =>
    rw [longest_cons]
    rcases List.mem_cons.mp h with rfl | h
    · exact Nat.le_max_left _ _
    · exact Nat.le_trans (ih h) (Nat.le_max_right _ _)

theorem longest_concat (slices : List Str) (slice : Str) :
    longest slices ≤ longest (slices ++ [slice]) := by
  induction slices with
  | nil => exact Nat.zero_le _
  | cons x slices ih =>
    rw [List.cons_append, longest_cons, longest_cons]
    omega

section Queue

variable {jobs : ℕ → Str} {head tail pending : ℕ} {accepted : List Str}

theorem Queue.taken_le (h : Queue conf jobs head tail pending accepted taken) :
    taken ≤ accepted.length := h.ring.tail_le

theorem Queue.full_iff (h : Queue conf jobs head tail pending accepted taken) :
    (tail + 1) % conf.maxJobs = head ↔ accepted.length + 1 = taken + conf.maxJobs := by
  have hle := h.taken_le
  have hspare := h.spare
  rw [h.head, h.tail, Nat.mod_add_mod]
  constructor
  · intro heq
    by_contra hne
    exact @mod_ne_of_window conf.maxJobs taken (accepted.length + 1) (by omega) (by omega) heq.symm
  · intro heq
    rw [heq, Nat.add_mod_right]

theorem Queue.empty_iff (h : Queue conf jobs head tail pending accepted taken) :
    head = tail ↔ taken = accepted.length := by
  have hle := h.taken_le
  rw [h.head, h.tail]
  constructor
  · intro heq
    by_contra hne
    exact @mod_ne_of_window conf.maxJobs taken accepted.length (by omega) h.spare heq
  · intro heq
    rw [heq]

theorem Queue.append (h : Queue conf jobs head tail pending accepted taken)
    (hroom : (tail + 1) % conf.maxJobs ≠ head) {slice : Str} (hne : slice ≠ []) :
    Queue conf (Function.update jobs tail slice) head ((tail + 1) % conf.maxJobs)
      (pending + slice.length) (accepted ++ [slice]) taken := by
  have hle := h.taken_le
  have hspare := h.spare
  have hnotfull := mt h.full_iff.mpr hroom
  refine ⟨?_, ?_, h.head, ?_, ?_, fun x hx => ?_⟩
  · rw [h.tail]
    exact h.ring.push h.spare slice
  · rw [List.length_append, List.length_singleton]
    omega
  · rw [List.length_append, List.length_singleton, h.tail, Nat.mod_add_mod]
  · rw [retained_push List.length slice hle, h.pending]
  · rcases List.mem_append.mp hx with hx | hx
    · exact h.nonempty x hx
    · rw [List.mem_singleton.mp hx]
      exact hne

theorem Queue.take (h : Queue conf jobs head tail pending accepted taken) (hne : head ≠ tail) :
    ∃ hlt : taken < accepted.length, jobs head = accepted[taken] ∧
      Queue conf jobs ((head + 1) % conf.maxJobs) tail (pending - (jobs head).length) accepted
        (taken + 1) := by
  have hle := h.taken_le
  have hlt : taken < accepted.length := Nat.lt_of_le_of_ne hle (mt h.empty_iff.mpr hne)
  have hjob : jobs head = accepted[taken] := by
    rw [h.head]
    exact h.ring.held taken hlt (Nat.le_refl _)
  refine ⟨hlt, hjob, ?_, ?_, ?_, h.tail, ?_, h.nonempty⟩
  · have hring := @Represents.evict _ _ _ _ _ _ h.ring hlt (jobs (taken % conf.maxJobs)) trivial
    rwa [Function.update_eq_self] at hring
  · have := h.spare
    omega
  · rw [h.head, Nat.mod_add_mod]
  · rw [h.pending, retained_evict List.length hlt, hjob, Nat.add_sub_cancel_left]

end Queue

section Disk

variable {files : Str → Str} {paths : List Str} {fd : Option Str} {partBytes parts : ℕ}
  {begun : Str}

theorem Disk.nodup (h : Disk conf files paths fd partBytes parts begun kept) : paths.Nodup := by
  obtain ⟨numbers, rfl, hnodup, -⟩ := h.numbers
  exact List.Nodup.map (partName_injective conf.path) hnodup

theorem Disk.skip (h : Disk conf files paths fd partBytes parts begun kept) :
    Disk conf files paths fd partBytes (parts + 1) begun kept := by
  obtain ⟨numbers, hopened, hnodup, hle⟩ := h.numbers
  exact ⟨⟨numbers, hopened, hnodup, fun n hn => Nat.le_succ_of_le (hle n hn)⟩, h.closed, h.current⟩

theorem map_update_of_not_mem {name : Str} (h : name ∉ paths) (text : Str) :
    paths.map (Function.update files name text) = paths.map files :=
  List.map_congr_left fun _ hx => Function.update_of_ne (ne_of_mem_of_not_mem hx h) text files

theorem Disk.opened (h : Disk conf files paths none partBytes parts begun kept)
    (hmax : 0 < conf.maxPartBytes) :
    Disk conf (Function.update files (partName conf.path (parts + 1)) [])
      (paths ++ [partName conf.path (parts + 1)]) (some (partName conf.path (parts + 1))) 0
      (parts + 1) [] (kept ++ [[]]) := by
  obtain ⟨numbers, rfl, hnodup, hle⟩ := h.numbers
  have hfresh : parts + 1 ∉ numbers := fun hmem => by
    have := hle _ hmem
    omega
  have hname : partName conf.path (parts + 1) ∉ numbers.map (partName conf.path) := by
    intro hmem
    obtain ⟨n, hn, heq⟩ := List.mem_map.mp hmem
    exact hfresh (partName_injective conf.path heq ▸ hn)
  refine ⟨⟨numbers ++ [parts + 1], ?_, ?_, fun n hn => ?_⟩, nofun, ?_⟩
  · rw [List.map_append, List.map_singleton]
  · exact hnodup.append (List.nodup_singleton _) (by simpa using hfresh)
  · rcases List.mem_append.mp hn with hn | hn
    · exact Nat.le_succ_of_le (hle n hn)
    · rw [List.mem_singleton.mp hn]
  · intro name hfd
    obtain rfl := Option.some.inj hfd
    refine ⟨_, kept, [], rfl, rfl, ?_, ?_, ?_, hmax⟩
    · rw [map_update_of_not_mem hname, h.closed rfl]
    · rw [Function.update_self]
      rfl
    · rw [Function.update_self]
      rfl

theorem Disk.grow {name : Str} (h : Disk conf files paths (some name) partBytes parts begun kept)
    (bytes : Str) :
    Disk conf (Function.update files name (files name ++ bytes)) paths (some name)
      (partBytes + bytes.length) parts (begun ++ bytes) kept := by
  refine ⟨h.numbers, nofun, fun name' hfd => ?_⟩
  obtain rfl := Option.some.inj hfd
  obtain ⟨front, init, cur, hopened, hkept, hfront, hfile, hsize, hmax⟩ := h.current name rfl
  have hnodup := h.nodup
  rw [hopened] at hnodup
  have hname : name ∉ front := fun hmem =>
    (List.nodup_append.mp hnodup).2.2 name hmem name List.mem_cons_self rfl
  refine ⟨front, init, cur, hopened, hkept, ?_, ?_, ?_, hmax⟩
  · rw [map_update_of_not_mem hname, hfront]
  · rw [Function.update_self, hfile, List.append_assoc]
  · rw [Function.update_self, List.length_append, hsize]

theorem Disk.close (h : Disk conf files paths fd partBytes parts [] kept) :
    Disk conf files paths none partBytes parts [] kept := by
  refine ⟨h.numbers, fun _ => ?_, nofun⟩
  cases hfd : fd with
  | none => exact h.closed hfd
  | some name =>
    obtain ⟨front, init, cur, rfl, rfl, hfront, hfile, -, -⟩ := h.current name hfd
    rw [List.map_append, List.map_append, hfront, List.map_singleton, List.map_singleton, hfile,
      List.append_nil]

theorem Disk.finish {name job : Str}
    (h : Disk conf files paths (some name) partBytes parts job kept) :
    ∃ init cur, kept = init ++ [cur] ∧ cur.flatten.length < conf.maxPartBytes ∧
      Disk conf files paths none partBytes parts [] (init ++ [cur ++ [job]]) ∧
      (partBytes < conf.maxPartBytes →
        Disk conf files paths (some name) partBytes parts [] (init ++ [cur ++ [job]])) := by
  obtain ⟨front, init, cur, hpaths, hkept, hfront, hfile, hsize, hmax⟩ := h.current name rfl
  have hflatten : (cur ++ [job]).flatten = cur.flatten ++ job := by
    rw [List.flatten_append, List.flatten_singleton]
  have hopen : partBytes < conf.maxPartBytes →
      Disk conf files paths (some name) partBytes parts [] (init ++ [cur ++ [job]]) := by
    intro hlt
    refine ⟨h.numbers, nofun, fun name' hfd => ?_⟩
    obtain rfl := Option.some.inj hfd
    refine ⟨front, init, cur ++ [job], hpaths, rfl, hfront, ?_, hsize, ?_⟩
    · rw [hflatten, List.append_nil, hfile]
    · rw [hflatten, ← hfile, ← hsize]
      exact hlt
  refine ⟨init, cur, hkept, hmax, ⟨h.numbers, fun _ => ?_, nofun⟩, hopen⟩
  rw [hpaths, List.map_append, List.map_append, hfront, List.map_singleton, List.map_singleton,
    hfile, hflatten]

end Disk

theorem inv_initial (hjobs : 0 < conf.maxJobs) (files : Str → Str) :
    Inv conf (initial files) 0 [] where
  queue := ⟨represents_empty fun _ => trivial, by simpa [initial] using hjobs, by simp [initial],
    by simp [initial], rfl, nofun⟩
  order := List.Sublist.refl _
  disk := ⟨⟨[], rfl, List.nodup_nil, nofun⟩, fun _ => rfl, nofun⟩
  sizes := nofun
  counted := ⟨rfl, nofun, nofun⟩
  control := ⟨fun _ => rfl, nofun, nofun, nofun⟩

theorem Inv.append (h : Inv conf s taken kept) {buf : Str} {offset len : ℕ}
    (hsound : Sound conf s (.append buf offset len)) :
    Inv conf (append conf s buf offset len) taken kept := by
  unfold RecordWriter.append
  split_ifs with hbusy hbad
  · exact h
  · exact h
  obtain ⟨hrun, hfree⟩ := not_or.mp hbusy
  rw [not_not] at hfree
  obtain ⟨hlen, hfits⟩ := not_or.mp hbad
  have hslice : ((buf.drop offset).take len).length = len := by
    rw [List.length_take, List.length_drop]
    omega
  have hbytes := h.counted.bytes
  rw [hfree] at hbytes
  unfold appendSlice
  rw [hslice]
  split_ifs with hfull
  · -- refused: the counter is loaded
    refine ⟨h.queue, h.order, h.disk, h.sizes,
      ⟨?_, fun bytes loaded hw => ?_, fun loaded n hr => ?_⟩,
      ⟨fun hstop => absurd hstop hrun, h.control.writing, h.control.exited, h.control.stopped⟩⟩
    · dsimp only
      rw [hbytes]
      rfl
    · exact absurd hw (hsound hfull bytes loaded)
    · cases hr
      rfl
  · have hroom : (s.tail + 1) % conf.maxJobs ≠ s.head := by
      intro heq
      refine hfull ?_
      unfold full
      rw [heq, decide_eq_true rfl, Bool.true_or]
    have hne : (buf.drop offset).take len ≠ [] := by
      intro hnil
      rw [hnil, List.length_nil] at hslice
      exact hlen hslice.symm
    have hqueue := h.queue.append hroom hne
    rw [hslice] at hqueue
    refine ⟨hqueue, ?_, h.disk, fun part hp => ?_, ⟨?_, h.counted.writer, h.counted.refusing⟩,
      ⟨fun hstop => absurd hstop hrun, h.control.writing, fun hw => ?_, fun hs => ?_⟩⟩
    · rw [List.take_append_of_le_length h.queue.taken_le]
      exact h.order
    · have hlongest := longest_concat s.accepted ((buf.drop offset).take len)
      exact Nat.le_trans (h.sizes part hp) (Nat.add_le_add_left hlongest _)
    · dsimp only
      rw [hbytes, hfree]
      simp only [Option.map_none, Option.getD_none]
      omega
    · exact absurd (h.control.exited hw).1 hrun
    · exact absurd (h.control.exited (h.control.stopped hs).1).1 hrun

theorem Inv.count (h : Inv conf s taken kept) : Inv conf (count s) taken kept := by
  unfold RecordWriter.count
  split
  · next loaded len hrefusing =>
    obtain rfl := h.counted.refusing loaded len hrefusing
    have hbytes := h.counted.bytes
    rw [hrefusing] at hbytes
    refine ⟨h.queue, h.order, h.disk, h.sizes, ⟨?_, fun bytes loaded hw => ?_, nofun⟩,
      ⟨fun _ => rfl, h.control.writing, h.control.exited, h.control.stopped⟩⟩
    · dsimp only
      rw [hbytes]
      simp only [Option.map_some, Option.getD_some, Option.map_none, Option.getD_none]
      omega
    · have := (h.counted.writer bytes loaded hw).2
      rw [hrefusing] at this
      cases this
  · exact h

theorem Inv.take (h : Inv conf s taken kept) : ∃ taken, Inv conf (take conf s) taken kept := by
  unfold RecordWriter.take
  split_ifs with hready
  · obtain ⟨hwait, hfree, hne⟩ := hready
    obtain ⟨hlt, hjob, hqueue⟩ := h.queue.take hne
    have horder := h.order
    have hdisk := h.disk
    have hbytes := h.counted.bytes
    rw [hwait] at horder hdisk hbytes
    have hpending : (s.jobs s.head).length ≤ s.stats.pendingBytes := by
      rw [h.queue.pending, retained_evict List.length hlt, hjob]
      exact Nat.le_add_right _ _
    refine ⟨taken + 1, hqueue, ?_, hdisk, h.sizes, ⟨?_, nofun, h.counted.refusing⟩,
      ⟨h.control.halted, nofun, nofun, fun hs => ?_⟩⟩
    · rw [List.take_add_one, List.getElem?_eq_getElem hlt]
      change (kept.flatten ++ [s.jobs s.head]).Sublist (_ ++ [s.accepted[taken]])
      rw [hjob]
      change (kept.flatten ++ []).Sublist _ at horder
      rw [List.append_nil] at horder
      exact horder.append (List.Sublist.refl _)
    · dsimp only
      rw [hbytes, Writer.left_waiting, Writer.left_took]
      omega
    · have := (h.control.stopped hs).1
      rw [hwait] at this
      cases this
  · exact ⟨taken, h⟩

theorem Inv.drop (h : Inv conf s taken kept) {job : Str} (hw : s.writer = .took job)
    (parts errors : ℕ) (hparts : parts = s.stats.parts + 1) :
    Inv conf { s with
      stats := { s.stats with parts := parts, writeErrors := errors }
      writer := .dropping job.length none } taken kept := by
  subst hparts
  have horder := h.order
  have hdisk := h.disk
  have hbytes := h.counted.bytes
  rw [hw] at horder hdisk hbytes
  refine ⟨h.queue, ?_, hdisk.skip, h.sizes, ⟨hbytes, nofun, h.counted.refusing⟩,
    ⟨h.control.halted, nofun, nofun, fun hs => ?_⟩⟩
  · change (kept.flatten ++ []).Sublist _
    rw [List.append_nil]
    exact (List.sublist_append_left _ _).trans horder
  · have := (h.control.stopped hs).1
    rw [hw] at this
    cases this

theorem Inv.start (h : Inv conf s taken kept) (hmax : 0 < conf.maxPartBytes) (result : Open) :
    ∃ kept, Inv conf (start conf s result) taken kept := by
  unfold RecordWriter.start
  split
  · next job hw =>
    have horder := h.order
    have hdisk := h.disk
    have hbytes := h.counted.bytes
    rw [hw] at horder hdisk hbytes
    have hjob : 0 < job.length := by
      have hmem : job ∈ s.accepted :=
        List.mem_of_mem_take (horder.subset (List.mem_append_right _ List.mem_cons_self))
      exact List.length_pos_iff.mpr (h.queue.nonempty job hmem)
    have hstopped : s.stopped = true → False := fun hs => by
      have := (h.control.stopped hs).1
      rw [hw] at this
      cases this
    have hwriting : ∀ job' written, Writer.writing job 0 = .writing job' written →
        written < job'.length := by
      intro job' written heq
      cases heq
      exact hjob
    split
    · next name hfd =>
      refine ⟨kept, h.queue, horder, hdisk, h.sizes, ⟨hbytes, nofun, h.counted.refusing⟩,
        ⟨h.control.halted, fun job' written heq => ⟨hwriting job' written heq, ?_⟩, nofun,
          fun hs => (hstopped hs).elim⟩⟩
      rw [hfd]
      exact Option.some_ne_none name
    · next hfd =>
      cases result with
      | noMemory => exact ⟨kept, h.drop hw _ _ rfl⟩
      | failed => exact ⟨kept, h.drop hw _ _ rfl⟩
      | opened =>
        rw [hfd] at hdisk
        refine ⟨kept ++ [[]], h.queue, ?_, hdisk.opened hmax, fun part hp => ?_,
          ⟨hbytes, nofun, h.counted.refusing⟩,
          ⟨h.control.halted, fun job' written heq => ⟨hwriting job' written heq, nofun⟩, nofun,
            fun hs => (hstopped hs).elim⟩⟩
        · rw [List.flatten_append, List.flatten_singleton, List.append_nil]
          exact horder
        · rcases List.mem_append.mp hp with hp | hp
          · exact h.sizes part hp
          · rw [List.mem_singleton.mp hp]
            exact Nat.zero_le _
  · exact ⟨kept, h⟩

theorem Inv.failWrite (h : Inv conf s taken kept) {job : Str} (hw : s.writer = .writing job 0) :
    Inv conf (failWrite s (job.length - 0)) taken kept := by
  have horder := h.order
  have hdisk := h.disk
  have hbytes := h.counted.bytes
  rw [hw] at horder hdisk hbytes
  refine ⟨h.queue, ?_, hdisk, h.sizes, ⟨hbytes, nofun, h.counted.refusing⟩,
    ⟨h.control.halted, nofun, nofun, fun hs => ?_⟩⟩
  · change (kept.flatten ++ []).Sublist _
    rw [List.append_nil]
    exact (List.sublist_append_left _ _).trans horder
  · have := (h.control.stopped hs).1
    rw [hw] at this
    cases this

theorem Inv.advance (h : Inv conf s taken kept) {name job : Str} {written bytes : ℕ}
    (hw : s.writer = .writing job written) (hfd : s.fd = some name)
    (hbytes : written + bytes ≤ job.length) :
    ∃ kept, Inv conf (advance conf s name job written bytes) taken kept := by
  have horder := h.order
  have hdisk := h.disk
  have hcount := h.counted.bytes
  rw [hw] at horder hdisk hcount
  rw [hfd] at hdisk
  have hstopped : s.stopped = true → False := fun hs => by
    have := (h.control.stopped hs).1
    rw [hw] at this
    cases this
  have hgrown := hdisk.grow ((job.drop written).take bytes)
  have hlength : ((job.drop written).take bytes).length = bytes := by
    rw [List.length_take, List.length_drop]
    omega
  have hbegun : (Writer.writing job written).begun ++ (job.drop written).take bytes =
      job.take (written + bytes) := (List.take_add ..).symm
  rw [hlength, hbegun] at hgrown
  rw [Writer.left_writing] at hcount
  unfold RecordWriter.advance
  dsimp only
  split_ifs with hmore hroll
  · refine ⟨kept, h.queue, horder, ?_, h.sizes, ⟨?_, nofun, h.counted.refusing⟩,
      ⟨h.control.halted, fun job' written' heq => ?_, nofun, fun hs => (hstopped hs).elim⟩⟩
    · rw [hfd]
      exact hgrown
    · dsimp only
      rw [hcount, Writer.left_writing]
      omega
    · cases heq
      refine ⟨hmore, ?_⟩
      rw [hfd]
      exact Option.some_ne_none name
  all_goals
    -- the slice is whole
    have hall : job.take (written + bytes) = job := List.take_of_length_le (by omega)
    rw [hall] at hgrown
    obtain ⟨init, cur, rfl, hmax, hclosed, hopen⟩ := hgrown.finish
    have horder' : ((init ++ [cur ++ [job]]).flatten ++ []).Sublist (s.accepted.take taken) := by
      have heq : (init ++ [cur ++ [job]]).flatten ++ [] = (init ++ [cur]).flatten ++ [job] := by
        simp
      rw [heq]
      exact horder
    have hmem : job ∈ s.accepted :=
      List.mem_of_mem_take (horder.subset (List.mem_append_right _ List.mem_cons_self))
    have hsizes : ∀ part ∈ init ++ [cur ++ [job]],
        part.flatten.length ≤ conf.maxPartBytes + longest s.accepted := by
      intro part hp
      rcases List.mem_append.mp hp with hp | hp
      · exact h.sizes part (List.mem_append_left _ hp)
      · rw [List.mem_singleton.mp hp, List.flatten_append, List.flatten_singleton,
          List.length_append]
        exact Nat.add_le_add (Nat.le_of_lt hmax) (longest_le_of_mem hmem)
    have hcounted : s.offered = s.stats.bytesWritten + bytes + s.stats.bytesDropped +
        s.stats.pendingBytes + 0 + (s.refusing.map Prod.snd).getD 0 := by
      rw [hcount]
      omega
  · exact ⟨_, h.queue, horder', hclosed, hsizes, ⟨hcounted, nofun, h.counted.refusing⟩,
      ⟨h.control.halted, nofun, nofun, fun hs => (hstopped hs).elim⟩⟩
  · refine ⟨_, h.queue, horder', ?_, hsizes, ⟨hcounted, nofun, h.counted.refusing⟩,
      ⟨h.control.halted, nofun, nofun, fun hs => (hstopped hs).elim⟩⟩
    rw [hfd]
    exact hopen (Nat.lt_of_not_le hroll)

theorem Inv.write (h : Inv conf s taken kept) {result : Write}
    (hsound : Sound conf s (.write result)) :
    ∃ kept, Inv conf (write conf s result) taken kept := by
  unfold RecordWriter.write
  split
  · next job written name hw hfd =>
    have hlt := (h.control.writing job written hw).1
    have hfail : result.fails = true → Inv conf (RecordWriter.failWrite s (job.length - written))
        taken kept := by
      intro hfails
      obtain rfl := hsound job written hw hfails
      exact h.failWrite hw
    cases result with
    | interrupted => exact ⟨kept, h⟩
    | failed => exact ⟨kept, hfail rfl⟩
    | wrote bytes =>
      dsimp only
      split_ifs with hnone
      · have hzero : bytes = 0 := by omega
        exact ⟨kept, hfail (beq_iff_eq.mpr hzero)⟩
      · exact h.advance hw hfd (by omega)
  · exact ⟨kept, h⟩

theorem Inv.load (h : Inv conf s taken kept) (hsound : Sound conf s .load) :
    Inv conf (load s) taken kept := by
  unfold RecordWriter.load
  split
  · next bytes hw =>
    have horder := h.order
    have hdisk := h.disk
    have hbytes := h.counted.bytes
    rw [hw] at horder hdisk hbytes
    refine ⟨h.queue, horder, hdisk, h.sizes, ⟨hbytes, fun n loaded heq => ?_, h.counted.refusing⟩,
      ⟨h.control.halted, nofun, nofun, fun hs => ?_⟩⟩
    · cases heq
      exact ⟨rfl, hsound⟩
    · have := (h.control.stopped hs).1
      rw [hw] at this
      cases this
  · exact h

theorem Inv.store (h : Inv conf s taken kept) : Inv conf (store s) taken kept := by
  unfold RecordWriter.store
  split
  · next bytes loaded hw =>
    obtain ⟨rfl, hfree⟩ := h.counted.writer bytes loaded hw
    have horder := h.order
    have hdisk := h.disk
    have hbytes := h.counted.bytes
    rw [hw] at horder hdisk hbytes
    rw [hfree, Writer.left_dropping] at hbytes
    refine ⟨h.queue, horder, hdisk, h.sizes, ⟨?_, nofun, fun loaded len hr => ?_⟩,
      ⟨h.control.halted, nofun, nofun, fun hs => ?_⟩⟩
    · dsimp only
      rw [hbytes, hfree, Writer.left_waiting]
      omega
    · rw [hfree] at hr
      cases hr
    · have := (h.control.stopped hs).1
      rw [hw] at this
      cases this
  · exact h

theorem Inv.exit (h : Inv conf s taken kept) : Inv conf (exit s) taken kept := by
  unfold RecordWriter.exit
  split_ifs with hready
  · obtain ⟨hwait, -, hempty, hstop⟩ := hready
    have horder := h.order
    have hdisk := h.disk
    have hbytes := h.counted.bytes
    rw [hwait] at horder hdisk hbytes
    refine ⟨h.queue, horder, hdisk, h.sizes, ⟨hbytes, nofun, h.counted.refusing⟩,
      ⟨h.control.halted, nofun, fun _ => ⟨hstop, h.queue.empty_iff.mp hempty⟩, fun hs => ?_⟩⟩
    exact ⟨rfl, (h.control.stopped hs).2⟩
  · exact h

theorem Inv.stop (h : Inv conf s taken kept) : Inv conf (stop s) taken kept := by
  unfold RecordWriter.stop
  split_ifs with hfree
  · exact ⟨h.queue, h.order, h.disk, h.sizes, ⟨h.counted.bytes, h.counted.writer,
      h.counted.refusing⟩, ⟨fun _ => hfree, h.control.writing,
        fun hw => ⟨rfl, (h.control.exited hw).2⟩, h.control.stopped⟩⟩
  · exact h

theorem Inv.join (h : Inv conf s taken kept) : Inv conf (join s) taken kept := by
  unfold RecordWriter.join
  split_ifs with hready
  · obtain ⟨-, hexited⟩ := hready
    have hdisk := h.disk
    rw [hexited] at hdisk
    refine ⟨h.queue, h.order, ?_, h.sizes, ⟨h.counted.bytes, h.counted.writer,
      h.counted.refusing⟩, ⟨h.control.halted, fun job written hw => ?_, h.control.exited,
        fun _ => ⟨hexited, rfl⟩⟩⟩
    · rw [hexited]
      exact hdisk.close
    · have hw : s.writer = .writing job written := hw
      rw [hexited] at hw
      cases hw
  · exact h

theorem Inv.step (hmax : 0 < conf.maxPartBytes) (h : Inv conf s taken kept) {e : Event}
    (hsound : Sound conf s e) : ∃ taken kept, Inv conf (step conf s e) taken kept := by
  cases e with
  | append buf offset len => exact ⟨taken, kept, h.append hsound⟩
  | count => exact ⟨taken, kept, h.count⟩
  | take =>
    obtain ⟨taken, hnext⟩ := h.take
    exact ⟨taken, kept, hnext⟩
  | start result =>
    obtain ⟨kept, hnext⟩ := h.start hmax result
    exact ⟨taken, kept, hnext⟩
  | write result =>
    obtain ⟨kept, hnext⟩ := h.write hsound
    exact ⟨taken, kept, hnext⟩
  | load => exact ⟨taken, kept, h.load hsound⟩
  | store => exact ⟨taken, kept, h.store⟩
  | exit => exact ⟨taken, kept, h.exit⟩
  | stop => exact ⟨taken, kept, h.stop⟩
  | join => exact ⟨taken, kept, h.join⟩

/-- A stopped recorder has written or dropped all that it accepted. -/
theorem Inv.recorded (h : Inv conf s taken kept) (hstopped : s.stopped = true) :
    Recorded conf s := by
  obtain ⟨hexited, hfd⟩ := h.control.stopped hstopped
  obtain ⟨hstop, htaken⟩ := h.control.exited hexited
  have horder := h.order
  have hdisk := h.disk
  have hbytes := h.counted.bytes
  rw [hexited] at horder hdisk hbytes
  rw [hfd] at hdisk
  have hfiles := hdisk.closed rfl
  refine ⟨⟨kept, ?_, hfiles⟩, ?_, hdisk.nodup, fun name hname => ?_⟩
  · exact (List.sublist_append_left _ _).trans (horder.trans (List.take_sublist _ _))
  · rw [hbytes, h.control.halted hstop, h.queue.pending, htaken, retained_all]
    rfl
  · have hmem : s.files name ∈ kept.map List.flatten := by
      rw [← hfiles]
      exact List.mem_map_of_mem hname
    obtain ⟨part, hpart, heq⟩ := List.mem_map.mp hmem
    rw [← heq]
    exact h.sizes part hpart

theorem effective_pos (conf : Conf) :
    0 < conf.effective.maxPartBytes ∧ 0 < conf.effective.maxJobs := by
  unfold Conf.effective
  dsimp only
  constructor <;> split_ifs <;> omega

def run (conf : Conf) (files : Str → Str) (events : List Event) : State :=
  events.foldl (step conf.effective) (initial files)

/-- A recorder that has stopped keeps whole slices in order, if in its run a write fails only with
nothing of its slice written, and neither thread loads `bytes_dropped` between the load and the
store of the other. -/
theorem stopped_recorded (conf : Conf) (files : Str → Str) (events : List Event)
    (hsound : StepRun.Meets (step conf.effective) (Sound conf.effective) (initial files) events)
    (hstopped : (run conf files events).stopped = true) :
    Recorded conf.effective (run conf files events) := by
  obtain ⟨hmax, hjobs⟩ := effective_pos conf
  obtain ⟨taken, kept, hinv⟩ := StepRun.invariant_of_meets
    (I := fun s => ∃ taken kept, Inv conf.effective s taken kept)
    (fun s e ⟨_, _, h⟩ hs => h.step hmax hs) ⟨0, [], inv_initial hjobs files⟩ hsound
  exact hinv.recorded hstopped

/-- Parts of two bytes, and a ring for one slice. -/
def small : Conf := ⟨[97], 2, 0, 2⟩

def shortWrites : List Event :=
  [.append [1, 2] 0 2, .take, .start .opened, .write (.wrote 1), .write .interrupted,
    .write (.wrote 1), .append [3] 0 1, .take, .start .failed, .load, .store, .append [4, 5] 1 1,
    .append [6] 0 1, .count, .take, .start .opened, .write (.wrote 1), .stop, .exit, .join]

theorem short_writes_recorded : Recorded small.effective (run small (fun _ => []) shortWrites) :=
  stopped_recorded small (fun _ => []) shortWrites (by decide +kernel) (by decide +kernel)

def failedBehindShort : List Event :=
  [.append [1, 2] 0 2, .take, .start .opened, .write (.wrote 1), .write .failed, .load, .store,
    .stop, .exit, .join]

def loadsCross : List Event :=
  [.append [1] 0 1, .take, .start .failed, .append [2] 0 1, .load, .append [3] 0 1, .count, .store,
    .take, .start .failed, .load, .store, .stop, .exit, .join]

/-- The first run leaves a fragment of a slice, the second one loses a dropped byte. -/
theorem fragment_and_lost_count :
    ((run small (fun _ => []) failedBehindShort).stopped = true ∧
      ¬ Recorded small.effective (run small (fun _ => []) failedBehindShort)) ∧
    (run small (fun _ => []) loadsCross).stopped = true ∧
      ¬ Recorded small.effective (run small (fun _ => []) loadsCross) := by
  refine ⟨⟨by decide +kernel, fun h => ?_⟩, by decide +kernel, fun h => ?_⟩
  · have hfiles : (run small (fun _ => []) failedBehindShort).opened.map
        (run small (fun _ => []) failedBehindShort).files = [[1]] := by decide +kernel
    have haccepted : (run small (fun _ => []) failedBehindShort).accepted = [[1, 2]] := by
      decide +kernel
    obtain ⟨kept, hsub, heq⟩ := h.whole
    rw [hfiles] at heq
    rw [haccepted] at hsub
    obtain ⟨part, rfl, hpart⟩ := List.map_eq_singleton_iff.mp heq.symm
    rw [List.flatten_singleton] at hsub
    rcases List.sublist_singleton.mp hsub with rfl | rfl
    · cases hpart
    · cases hpart
  · exact absurd h.counted (by decide +kernel)

end RecordWriter

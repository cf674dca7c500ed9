import IvySync.Process.Syncstart

/-!
# The barrier that is none

`main` sleeps for a fixed time before it raises `syncstart`; `launch` returns before the lines that
would wait for the thread.  So nothing makes a decoder that has a movie to play arrive at the sync
test first: the barrier stands only where no decoder ever comes to a movie that can be opened
(`barrier_iff`).
-/

namespace IvySync

namespace Process

open Machine (Seen seen_snoc)

variable {n : ℕ}

/-- Every decoder whose current entry is a readable movie waits at the sync test. -/
def AtBarrier (fopen64 : Name → FopenResult) (s : Process n) : Prop :=
  ∀ i name, (s.decoders i).playlist.pick (s.decoders i).position = some name →
    (fopen64 name).opens = true → (s.decoders i).pc = .syncWait

/-- Whenever `main` raises `syncstart`, every decoder with a readable movie waits at the test. -/
def Barrier (cfg : Config n) (fopen64 : Name → FopenResult) : Prop :=
  ∀ tr s s' x, (machine cfg).RunOn (Reads fopen64) (init cfg) tr s →
    (machine cfg).next s x = some (s', .raised) → AtBarrier fopen64 s

/-- The size that `setup` asks of `calloc` does not overflow. -/
def Fits (cfg : Config n) : Prop := sizeT (int32 (cfg.videobuf + 1)) * 1024 < 2 ^ 64

/-- The entries of decoder `i` once `load` is done. -/
def entries (cfg : Config n) (i : Fin n) : Playlist Name := cfg.files i ++ cfg.saved i

/-- The playmode goes on to the next entry. -/
def advances (mode : Playmode) : Bool := mode = .play || mode = .cont

/-- Decoder `i` can come to a readable movie: in a player that is no daemon, with a buffer and a
device, it has a readable entry, and all entries before it can be skipped. -/
def MovieAhead (cfg : Config n) (fopen64 : Name → FopenResult) (i : Fin n) : Prop :=
  cfg.rpcdaemon = false ∧ Fits cfg ∧ (cfg.fd i ≠ 0 ∨ cfg.dummy i = true) ∧
    ∃ before name after, entries cfg i = before ++ name :: after ∧ (fopen64 name).opens = true ∧
      (∀ x ∈ before, (fopen64 x).skipped = true) ∧
      (before = [] ∨ advances (cfg.playmode i) = true)

variable {cfg : Config n} {fopen64 : Name → FopenResult} {s s' : Process n}

/-! ### A thread that is not there yet -/

/-- A step that can be taken with `syncstart` down, on a given file system. -/
def Early (fopen64 : Name → FopenResult) (d : Decoder) : IvySync.Action → Prop
  | .thread a => a.syncstart = false ∧ (d.pc = .open →
    ∀ name ∈ d.playlist.pick d.position, a.fopen64 = fopen64 name)
  | .request _ => False

@[simp] theorem set_set (s : Process n) (i : Fin n) (d d' : Decoder) :
    (s.set i d).set i d' = s.set i d' := by
  simp [set]

@[simp] theorem set_self (s : Process n) (i : Fin n) : s.set i (s.decoders i) = s := by
  simp [set]

variable (cfg) in
/-- What the thread of a decoder can do alone, it can do in the process. -/
theorem exists_run_of_thread {i : Fin n} {d' : Decoder} {tr : List (IvySync.Action × IvySync.Event)}
    (hm : s.main ≠ .exited) (hflag : s.syncstart = false)
    (h : Decoder.machine.RunOn (Early fopen64) (s.decoders i) tr d') :
    ∃ tr', (machine cfg).RunOn (Reads fopen64) s tr' (s.set i d') := by
  induction h with
  | nil =>
    refine ⟨[], ?_⟩
    rw [set_self]
    exact Machine.RunOn.nil
  | @snoc tr d d' x e _ hC hn ih =>
    obtain ⟨tr', h'⟩ := ih
    cases x with
    | request r => exact hC.elim
    | thread a =>
      obtain ⟨ha, hreads⟩ := hC
      simp only [Decoder.machine] at hn
      split_ifs at hn with hal
      refine ⟨_, h'.snoc (a := .thread i a) (e := .thread i e) ?_ ?_⟩
      · simpa [Reads] using hreads
      · have hflag' : { a with syncstart := s.syncstart } = a := by
          rw [hflag, ← ha]
        simp [machine, hm, threadStep, hal, hflag', Option.some.inj hn]

/-- The thread has moved to position `p` and is about to look at `quit`; the movie at `p` has not
been opened yet. -/
structure Scanning (files : Playlist Name) (p : ℤ) (d : Decoder) : Prop where
  pc : d.pc = .quitCheck
  position : d.position = p
  playlist : d.playlist = files
  playing : d.playing = true
  stopped : d.stopped = false
  quit : d.quit = false

/-- An entry that is skipped leaves no stream. -/
theorem openMovie_of_skipped {d : Decoder} {r : FopenResult} {name : Name}
    (hm : d.playlist.pick d.position = some name) (hr : r.skipped = true) :
    d.openMovie r = ({ d with playlistFd := none, pc := .loop }, .silent) := by
  cases r with
  | stream movie => cases hr
  | failed => simp [Decoder.openMovie, hm]
  | tooLarge tmpfd movie =>
    have h0 : tmpfd = 0 := by simpa [FopenResult.skipped] using hr
    simp [Decoder.openMovie, hm, h0]

/-- At the head of `run` the thread updates its position. -/
theorem step_of_loop {a : Answers} {d : Decoder} (hpc : d.pc = .loop) (hquit : d.quit = false) :
    d.step a = ({ d.update with pc := .quitCheck }, .silent) := by
  simp [Decoder.step, hpc, hquit]

/-- Inside of the playlist `update` moves on by one where the playmode says so. -/
theorem update_of_advances {d : Decoder} (hmode : advances d.playmode = true)
    (hpos : 0 ≤ d.position) (hlt : d.position < d.playlist.length) :
    d.update = { d with position := d.position + 1 } := by
  unfold Decoder.update
  rw [if_neg (by omega)]
  cases hm : d.playmode with
  | play => exact if_neg (by omega)
  | cont => exact if_neg (by omega)
  | _ => simp [advances, hm] at hmode

/-- From an entry that is skipped the thread comes to the next one. -/
theorem Scanning.next {before after : Playlist Name} {name name' : Name} {d : Decoder}
    (h : Scanning (before ++ name :: name' :: after) (before.length + 1) d)
    (hskip : (fopen64 name).skipped = true) (hmode : advances d.playmode = true) :
    ∃ tr d', Decoder.machine.RunOn (Early fopen64) d tr d' ∧ d'.playmode = d.playmode ∧
      Scanning (before ++ name :: name' :: after) (before.length + 2) d' := by
  obtain ⟨hpc, hpos, hlist, hplay, hstop, hquit⟩ := h
  let a : Answers := { syncstart := false, fopen64 := fopen64 name }
  have hpick : d.playlist.pick d.position = some name := by
    rw [hlist, hpos]
    exact Playlist.pick_append_cons before (name' :: after) name
  have h₁ : Decoder.machine.next d (.thread a) = some ({ d with pc := .stopCheck }, .silent) := by
    simp [Decoder.machine, Decoder.alive, Decoder.step, hpc, hquit]
  have h₂ : Decoder.machine.next { d with pc := .stopCheck } (.thread a) =
      some ({ d with pc := .playWait }, .silent) := by
    simp [Decoder.machine, Decoder.alive, Decoder.step, hstop]
  have h₃ : Decoder.machine.next { d with pc := .playWait } (.thread a) =
      some ({ d with pc := .open }, .silent) := by
    simp [Decoder.machine, Decoder.alive, Decoder.step, hplay]
  have h₄ : Decoder.machine.next { d with pc := .open } (.thread a) =
      some ({ d with playlistFd := none, pc := .loop }, .silent) := by
    have hopen := openMovie_of_skipped (d := { d with pc := .open }) hpick hskip
    simp [Decoder.machine, Decoder.alive, Decoder.step, hopen, a]
  have h₅ : Decoder.machine.next { d with playlistFd := none, pc := .loop } (.thread a) =
      some ({ d with playlistFd := none, position := d.position + 1, pc := .quitCheck },
        .silent) := by
    have hnonneg : 0 ≤ d.position := by omega
    have hlt : d.position < d.playlist.length := by
      simp only [hlist, hpos, List.length_append, List.length_cons]
      omega
    have hupdate := update_of_advances (d := { d with playlistFd := none, pc := .loop }) hmode
      hnonneg hlt
    have hstep := step_of_loop (a := a) (d := { d with playlistFd := none, pc := .loop }) rfl hquit
    rw [hupdate] at hstep
    exact congrArg some hstep
  have hearly : ∀ x : Decoder, x.pc ≠ .open → Early fopen64 x (.thread a) :=
    fun x hx => ⟨rfl, fun hopen => absurd hopen hx⟩
  have hreads : Early fopen64 { d with pc := .open } (.thread a) := by
    refine ⟨rfl, fun _ x hx => ?_⟩
    rw [Option.mem_def, hpick, Option.some.injEq] at hx
    exact hx ▸ rfl
  refine ⟨_, _, Machine.RunOn.cons (hearly _ (by simp [hpc])) h₁
    (Machine.RunOn.cons (hearly _ (by simp)) h₂ (Machine.RunOn.cons (hearly _ (by simp)) h₃
      (Machine.RunOn.cons hreads h₄ (Machine.RunOn.single (hearly _ (by simp)) h₅)))), rfl, ?_⟩
  exact ⟨rfl, by dsimp only; omega, hlist, hplay, hstop, hquit⟩

/-- The thread comes to every entry before which all can be skipped. -/
theorem Scanning.exists_run {before after : Playlist Name} {name : Name} {d : Decoder}
    (h : Scanning (before ++ name :: after) 1 d)
    (hskip : ∀ x ∈ before, (fopen64 x).skipped = true)
    (hmode : before = [] ∨ advances d.playmode = true) :
    ∃ tr d', Decoder.machine.RunOn (Early fopen64) d tr d' ∧
      Scanning (before ++ name :: after) (before.length + 1) d' := by
  -- by induction on how many of the entries before it the thread has passed
  have key : ∀ passed rest, before = passed ++ rest →
      ∃ tr d', Decoder.machine.RunOn (Early fopen64) d tr d' ∧ d'.playmode = d.playmode ∧
        Scanning (before ++ name :: after) (passed.length + 1) d' := by
    intro passed
    induction passed using List.reverseRecOn with
    | nil => exact fun rest _ => ⟨[], d, Machine.RunOn.nil, rfl, by simpa using h⟩
    | append_singleton passed x ih =>
      intro rest hbefore
      obtain ⟨tr, d₁, h₁, hmode₁, hscan⟩ := ih (x :: rest) (by simpa using hbefore)
      have hx : (fopen64 x).skipped = true := hskip x (by simp [hbefore])
      have hadv : advances d₁.playmode = true := by
        rw [hmode₁]
        exact hmode.resolve_left (by simp [hbefore])
      obtain ⟨y, tail, htail⟩ : ∃ y tail, rest ++ name :: after = y :: tail := by
        cases rest <;> exact ⟨_, _, rfl⟩
      have hfiles : before ++ name :: after = passed ++ x :: y :: tail := by
        simp [hbefore, htail]
      rw [hfiles] at hscan ⊢
      obtain ⟨tr', d₂, h₂, hmode₂, hscan'⟩ := hscan.next hx hadv
      refine ⟨tr ++ tr', d₂, h₁.append h₂, hmode₂.trans hmode₁, ?_⟩
      simpa [add_assoc] using hscan'
  obtain ⟨tr, d', h', -, hscan⟩ := key before [] (by simp)
  exact ⟨tr, d', h', hscan⟩

/-- A thread that has just been created, with a device and a playlist to play, moves to the first
entry. -/
theorem exists_run_of_start {files : Playlist Name} {d : Decoder} (hpc : d.pc = .start)
    (hdev : d.fd ≠ 0 ∨ d.dummy = true) (hpos : d.position = -1) (hlist : d.playlist = files)
    (hplay : d.playing = true) (hstop : d.stopped = false) (hquit : d.quit = false) :
    ∃ tr d', Decoder.machine.RunOn (Early fopen64) d tr d' ∧ d'.playmode = d.playmode ∧
      Scanning files 1 d' := by
  have h₁ : Decoder.machine.next d (.thread { syncstart := false }) =
      some ({ d with running := true, pc := .loop }, .silent) := by
    have hdev' : ¬ (d.fd = 0 ∧ d.dummy = false) := by
      rintro ⟨hfd, hd⟩
      simp [hfd, hd] at hdev
    simp [Decoder.machine, Decoder.alive, Decoder.step, hpc, hdev']
  have h₂ : Decoder.machine.next { d with running := true, pc := .loop }
      (.thread { syncstart := false }) =
      some ({ d with running := true, position := 1, pc := .quitCheck }, .silent) := by
    simp [Decoder.machine, Decoder.alive, Decoder.step, Decoder.update, hquit, hpos]
  have hearly : ∀ x : Decoder, x.pc ≠ .open → Early fopen64 x (.thread { syncstart := false }) :=
    fun x hx => ⟨rfl, fun hopen => absurd hopen hx⟩
  refine ⟨_, _, Machine.RunOn.cons (hearly _ (by simp [hpc])) h₁
    (Machine.RunOn.single (hearly _ (by simp)) h₂), rfl, ?_⟩
  exact ⟨rfl, rfl, hlist, hplay, hstop, hquit⟩

/-! ### A main that comes to raise the flag -/

@[simp] theorem goto_set (s : Process n) (i : Fin n) (d : Decoder) (m : Main n) :
    (s.goto m).set i d = (s.set i d).goto m := rfl

@[simp] theorem goto_goto (s : Process n) (m m' : Main n) : (s.goto m).goto m' = s.goto m' := rfl

/-- A decoder that `main` has set up, launched, loaded and told to play. -/
def primed (cfg : Config n) (i : Fin n) : Decoder :=
  { (((init cfg).decoders i).setup true cfg.videobuf).1.launch true with
    playlist := entries cfg i
    playing := true
    stopped := false }

/-- A step of `main` alone is a run. -/
theorem run_main {a : MainAnswers} {e : Event n} (hm : s.main ≠ .exited)
    (h : s.mainStep cfg a = some (s', e)) :
    (machine cfg).RunOn (Reads fopen64) s [(.main a, e)] s' :=
  Machine.RunOn.single trivial (by simpa [machine, hm] using h)

variable (cfg fopen64 s) in
/-- `load` appends the entries that are left, one after the other. -/
theorem exists_run_of_load {i : Fin n} (rest : Playlist Name) (k : ℕ) (d : Decoder)
    (hrest : (cfg.saved i).drop k = rest) :
    ∃ tr, (machine cfg).RunOn (Reads fopen64) ((s.set i d).goto (.load i k)) tr
      ((s.set i { d with playlist := d.playlist ++ rest }).goto (.play i)) := by
  induction rest generalizing k d with
  | nil =>
    have hnone : (cfg.saved i)[k]? = none := by
      rw [List.drop_eq_nil_iff] at hrest
      exact List.getElem?_eq_none hrest
    exact ⟨_, run_main (a := {}) (e := .silent) (by simp) (by simp [mainStep, hnone])⟩
  | cons line rest ih =>
    have hline : (cfg.saved i)[k]? = some line := by
      rw [← List.head?_drop, hrest, List.head?_cons]
    have hdrop : (cfg.saved i).drop (k + 1) = rest := by
      rw [← List.tail_drop, hrest, List.tail_cons]
    obtain ⟨tr, h⟩ := ih (k + 1) (d.append line) hdrop
    have hstep : (machine cfg).RunOn (Reads fopen64) ((s.set i d).goto (.load i k)) _
        ((s.set i (d.append line)).goto (.load i (k + 1))) :=
      run_main (a := {}) (e := .request i (.append line)) (by simp) (by simp [mainStep, hline])
    exact ⟨_, hstep.append (by simpa [Decoder.append, Playlist.append] using h)⟩

variable (fopen64) in
/-- `main` prepares one decoder and goes on to the next. -/
theorem exists_run_of_setup {i : Fin n} (hm : s.main = .setup i) (hd : s.rpcdaemon = false)
    (hi : s.decoders i = (init cfg).decoders i) :
    ∃ tr, (machine cfg).RunOn (Reads fopen64) s tr
      ((s.set i (primed cfg i)).goto (following .setup .syncing i)) := by
  have h₁ : (machine cfg).RunOn (Reads fopen64) s _ ((s.set i
      (((init cfg).decoders i).setup true cfg.videobuf).1).goto (.launch i)) :=
    run_main (a := {}) (e := .silent) (by simp [hm]) (by simp [mainStep, hm, hi])
  have h₂ : (machine cfg).RunOn (Reads fopen64) ((s.set i
      (((init cfg).decoders i).setup true cfg.videobuf).1).goto (.launch i)) _
      ((s.set i ((((init cfg).decoders i).setup true cfg.videobuf).1.launch true)).goto
        (.load i 0)) :=
    run_main (a := {}) (e := .silent) (by simp) (by simp [mainStep, hd])
  obtain ⟨tr, h₃⟩ := exists_run_of_load cfg fopen64 s (cfg.saved i) 0
    ((((init cfg).decoders i).setup true cfg.videobuf).1.launch true) (List.drop_zero)
  refine ⟨_, (h₁.append (h₂.append h₃)).append
    (run_main (a := {}) (e := .request i .play) (by simp) ?_)⟩
  have hprimed : Decoder.play { (((init cfg).decoders i).setup true cfg.videobuf).1.launch true with
      playlist := ((((init cfg).decoders i).setup true cfg.videobuf).1.launch true).playlist ++
        cfg.saved i } = primed cfg i := by
    obtain ⟨_, _, _, heq, -⟩ :=
      Decoder.exists_setup_eq true cfg.videobuf ((init cfg).decoders i)
    simp only [primed, heq]
    rfl
  simp [mainStep, hprimed]

variable (fopen64) in
/-- `main` prepares the decoders that are left and comes to raise the flag. -/
theorem exists_run_of_setups (hb : cfg.build = .player) (left : ℕ) :
    ∀ (i : Fin n) (s : Process n), n = i.val + 1 + left → s.main = .setup i →
      s.rpcdaemon = false → s.syncstart = false →
      (∀ j, s.decoders j = if j < i then primed cfg j else (init cfg).decoders j) →
      ∃ tr s', (machine cfg).RunOn (Reads fopen64) s tr s' ∧ s'.main = .raise ∧
        s'.syncstart = false ∧ ∀ j, s'.decoders j = primed cfg j := by
  induction left with
  | zero =>
    intro i s hn hm hd hflag hdec
    have hi : s.decoders i = (init cfg).decoders i := by rw [hdec, if_neg (lt_irrefl i)]
    obtain ⟨tr, h⟩ := exists_run_of_setup fopen64 hm hd hi
    have hlast : following Main.setup Main.syncing i = .syncing := dif_neg (by omega)
    rw [hlast] at h
    have hsync : (machine cfg).RunOn (Reads fopen64) ((s.set i (primed cfg i)).goto .syncing) _
        ((s.set i (primed cfg i)).goto .raise) :=
      run_main (a := {}) (e := .silent) (by simp) (by simp [mainStep, hd, hb])
    refine ⟨_, _, h.append hsync, rfl, hflag, fun j => ?_⟩
    by_cases hj : j = i
    · subst hj
      simp
    · rw [goto_decoders, set_decoders_of_ne s _ hj, hdec, if_pos (by omega)]
  | succ left ih =>
    intro i s hn hm hd hflag hdec
    have hi : s.decoders i = (init cfg).decoders i := by rw [hdec, if_neg (lt_irrefl i)]
    obtain ⟨tr, h⟩ := exists_run_of_setup fopen64 hm hd hi
    have hlt : i.val + 1 < n := by omega
    have hnext : following Main.setup Main.syncing i = .setup ⟨i.val + 1, hlt⟩ := dif_pos hlt
    rw [hnext] at h
    obtain ⟨tr', s', h', hrest⟩ := ih ⟨i.val + 1, hlt⟩
      ((s.set i (primed cfg i)).goto (.setup ⟨i.val + 1, hlt⟩)) (by dsimp only; omega) rfl hd
      hflag fun j => by
        rw [goto_decoders]
        by_cases hj : j = i
        · subst hj
          rw [set_decoders_self, if_pos (Fin.lt_def.mpr (Nat.lt_succ_self _))]
        · rw [set_decoders_of_ne s _ hj, hdec]
          have hiff : j < i ↔ j < ⟨i.val + 1, hlt⟩ := by
            rw [Fin.lt_def, Fin.lt_def]
            dsimp only
            omega
          simp only [hiff]
    exact ⟨_, s', h.append h', hrest⟩

variable (fopen64) in
/-- In a player that is no daemon `main` can prepare all decoders and come to raise the flag before
any thread takes a step. -/
theorem exists_run_of_init (hb : cfg.build = .player) (hd : cfg.rpcdaemon = false) (hn : 0 < n) :
    ∃ tr s, (machine cfg).RunOn (Reads fopen64) (init cfg) tr s ∧ s.main = .raise ∧
      s.syncstart = false ∧ ∀ j, s.decoders j = primed cfg j := by
  have h₁ : (machine cfg).RunOn (Reads fopen64) (init cfg) _ ((init cfg).goto .udpInit) :=
    run_main (a := {}) (e := .silent) (by simp [init])
      (by simp [mainStep, init, hd, goto, Nat.ne_of_gt hn])
  have h₂ : (machine cfg).RunOn (Reads fopen64) ((init cfg).goto .udpInit) _
      ((init cfg).goto (.setup ⟨0, hn⟩)) :=
    run_main (a := {}) (e := .silent) (by simp)
      (by simp [mainStep, hb, goto, first, hn])
  obtain ⟨tr, s, h, hrest⟩ := exists_run_of_setups fopen64 hb (n - 1) ⟨0, hn⟩
    ((init cfg).goto (.setup ⟨0, hn⟩)) (by dsimp only; omega) rfl hd rfl
    (fun j => by rw [if_neg (by simp [Fin.lt_def]), goto_decoders])
  exact ⟨_, s, (h₁.append h₂).append h, hrest⟩

variable (fopen64) in
/-- A decoder with a device that `main` has prepared moves to the first entry of its playlist. -/
theorem exists_run_of_primed {i : Fin n} (hfits : Fits cfg)
    (hdev : cfg.fd i ≠ 0 ∨ cfg.dummy i = true) :
    ∃ tr d, Decoder.machine.RunOn (Early fopen64) (primed cfg i) tr d ∧
      d.playmode = cfg.playmode i ∧ Scanning (entries cfg i) 1 d := by
  have hsetup : (((init cfg).decoders i).setup true cfg.videobuf).1 =
      { (init cfg).decoders i with
        buffo := List.replicate (sizeT (int32 (cfg.videobuf + 1)) * 1024) 0
        buffoSize := int32 (cfg.videobuf * 1024)
        quit := false } := by
    simp only [Decoder.setup]
    rw [if_pos ⟨trivial, hfits⟩]
  have hprimed : primed cfg i =
      { ({ (init cfg).decoders i with
          buffo := List.replicate (sizeT (int32 (cfg.videobuf + 1)) * 1024) 0
          buffoSize := int32 (cfg.videobuf * 1024)
          quit := false } : Decoder).launch true with
        playlist := entries cfg i
        playing := true
        stopped := false } := by
    rw [primed, hsetup]
  rw [hprimed]
  exact exists_run_of_start rfl hdev rfl rfl rfl rfl rfl

/-- Where a decoder can come to a readable movie, `main` can raise the flag before the decoder waits
at the sync test. -/
theorem MovieAhead.not_barrier {i : Fin n} (hb : cfg.build = .player)
    (h : MovieAhead cfg fopen64 i) : ¬ Barrier cfg fopen64 := by
  obtain ⟨hd, hfits, hdev, before, name, after, hentries, hopens, hskip, hmode⟩ := h
  obtain ⟨tr, s, h₁, hm, hflag, hdec⟩ := exists_run_of_init fopen64 hb hd i.pos
  obtain ⟨tr₁, d₁, hrun₁, hmode₁, hscan₁⟩ := exists_run_of_primed fopen64 hfits hdev
  rw [hentries] at hscan₁
  obtain ⟨tr₂, d₂, hrun₂, hscan₂⟩ := hscan₁.exists_run hskip (by rwa [hmode₁])
  have hthread : Decoder.machine.RunOn (Early fopen64) (s.decoders i) (tr₁ ++ tr₂) d₂ := by
    rw [hdec i]
    exact hrun₁.append hrun₂
  obtain ⟨tr', h₂⟩ := exists_run_of_thread cfg (by simp [hm]) hflag hthread
  intro hbarrier
  have hat := hbarrier _ (s.set i d₂) { s.set i d₂ with syncstart := true, main := .wait }
    (.main {}) (h₁.append h₂) (by simp [machine, mainStep, hm])
  have hpc := hat i name (by
    rw [set_decoders_self, hscan₂.playlist, hscan₂.position]
    exact Playlist.pick_append_cons before after name) hopens
  rw [set_decoders_self, hscan₂.pc] at hpc
  cases hpc

/-! ### How far main is with a decoder -/

/-- How far `main` is with a decoder. -/
inductive Stage
  /-- It has not been launched. -/
  | fresh
  /-- These entries are still to be appended, and the decoder is to be told to play. -/
  | loading (rest : Playlist Name)
  /-- `main` is done with it. -/
  | released

/-- How far `main` is with decoder `i` at a control point. -/
def stage (cfg : Config n) (i : Fin n) : Main n → Stage
  | .begin | .udpInit => .fresh
  | .setup j | .launch j => if j ≤ i then .fresh else .released
  | .load j k => if j < i then .fresh else if j = i then .loading ((cfg.saved i).drop k)
    else .released
  | .play j => if j < i then .fresh else if j = i then .loading [] else .released
  | _ => .released

/-- What a step of a player that is no daemon does to decoder `i`, and how far `main` then is. -/
inductive Prepared (cfg : Config n) (i : Fin n) (d : Decoder) : Stage → Decoder → Stage → Prop
  | same (st : Stage) : Prepared cfg i d st d st
  | setup (calloc : Bool) :
      Prepared cfg i d .fresh (d.setup calloc cfg.videobuf).1 .fresh
  | launch (created : Bool) : Prepared cfg i d .fresh (d.launch created) (.loading (cfg.saved i))
  | append (line : Name) (rest : Playlist Name) :
      Prepared cfg i d (.loading (line :: rest)) (d.append line) (.loading rest)
  | play : Prepared cfg i d (.loading []) d.play .released

/-- After the last `play` of `main` the next decoder is set up, or `main` is done with all. -/
theorem stage_following (i j : Fin n) :
    stage cfg i (following .setup .syncing j) = if j < i then .fresh else .released := by
  unfold following
  split_ifs with hj hi hi
  · exact if_pos (show j.val + 1 ≤ i.val from hi)
  · exact if_neg (show ¬ j.val + 1 ≤ i.val from hi)
  · rw [Fin.lt_def] at hi
    omega
  · rfl

/-- A step of `main` in a player that is no daemon prepares each decoder. -/
theorem MainStep.prepared {a : MainAnswers} {e : Event n} (h : MainStep cfg a s s' e) (i : Fin n)
    (hb : cfg.build = .player) (hd : s.rpcdaemon = false) (hserving : ¬ Serving s.main) :
    Prepared cfg i (s.decoders i) (stage cfg i s.main) (s'.decoders i) (stage cfg i s'.main) := by
  cases h
  case noDecoder hm hn => exact absurd i.pos (by omega)
  case begin hm _ _ _ =>
    rw [hm]
    exact Prepared.same _
  case udpLaunched hm hu _ => simp [hb] at hu
  case noUdp hm hu =>
    have hfirst : stage cfg i (first .setup) = .fresh := by
      unfold first
      rw [dif_pos i.pos, stage, if_pos (show (⟨0, i.pos⟩ : Fin n) ≤ i from Nat.zero_le i.val)]
    rw [hm, hfirst]
    exact Prepared.same _
  case setup j hm =>
    rw [hm, goto_decoders, goto_main]
    by_cases hj : i = j
    · subst hj
      rw [set_decoders_self]
      simp only [stage, le_refl, if_true]
      exact Prepared.setup _
    · rw [set_decoders_of_ne s _ hj]
      exact Prepared.same _
  case launch j hm =>
    rw [hm, goto_decoders, goto_main, hd, if_neg (by simp)]
    by_cases hj : i = j
    · subst hj
      rw [set_decoders_self]
      simp only [stage, le_refl, lt_irrefl, if_true, if_false, List.drop_zero]
      exact Prepared.launch _
    · rw [set_decoders_of_ne s _ hj]
      have hlt : j ≤ i ↔ j < i := ⟨fun hle => lt_of_le_of_ne hle (Ne.symm hj), le_of_lt⟩
      simp only [stage, hlt, Ne.symm hj, if_false]
      exact Prepared.same _
  case load j k line hm hl =>
    rw [hm, goto_decoders, goto_main]
    by_cases hj : i = j
    · subst hj
      rw [set_decoders_self]
      have hdrop : (cfg.saved i).drop k = line :: (cfg.saved i).drop (k + 1) := by
        obtain ⟨hk, rfl⟩ := List.getElem?_eq_some_iff.mp hl
        exact List.drop_eq_getElem_cons hk
      simp only [stage, lt_irrefl, if_true, if_false, hdrop]
      exact Prepared.append _ _
    · rw [set_decoders_of_ne s _ hj]
      simp only [stage, Ne.symm hj, if_false]
      exact Prepared.same _
  case loaded j k hm hl =>
    rw [hm, goto_decoders, goto_main]
    have hdrop : j = i → (cfg.saved i).drop k = [] := by
      rintro rfl
      exact List.drop_eq_nil_iff.mpr (List.getElem?_eq_none_iff.mp hl)
    have hstage : stage cfg i (.load j k) = stage cfg i (.play j) := by
      simp only [stage]
      split_ifs with _ hj
      · rfl
      · rw [hdrop hj]
      · rfl
    rw [hstage]
    exact Prepared.same _
  case play j hm =>
    rw [hm, goto_decoders, goto_main, stage_following]
    by_cases hj : i = j
    · subst hj
      rw [set_decoders_self]
      simp only [stage, lt_irrefl, if_true, if_false]
      exact Prepared.play
    · rw [set_decoders_of_ne s _ hj]
      simp only [stage, Ne.symm hj, if_false]
      exact Prepared.same _
  case syncing hm =>
    rw [hm, goto_decoders, goto_main, hd, if_neg (by simp [hb])]
    exact Prepared.same _
  case raise hm =>
    rw [hm]
    exact Prepared.same _
  case wait hm =>
    have hcount : stage cfg i (first (.count · 0)) = .released :=
      first_rule (P := fun m => stage cfg i m = .released) (fun _ => rfl) rfl
    rw [hm, goto_decoders, goto_main, if_neg (by simp [hb]), hcount]
    exact Prepared.same _
  case count hm _ =>
    rw [goto_main, hm, goto_decoders]
    rw [count_rule (P := fun m => stage cfg i m = .released) (fun _ _ => rfl) rfl]
    exact Prepared.same _
  case serveQuit hm _ | serveNothing hm _ | quit hm _ => exact absurd (Or.inl hm) hserving
  case request hm _ _ _ _ _ _ _ => exact absurd (Or.inl hm) hserving
  case quitting j hm => exact absurd (Or.inr ⟨j, Or.inl hm⟩) hserving
  case join j hm _ _ | joinLast j hm _ _ => exact absurd (Or.inr ⟨j, Or.inr hm⟩) hserving

/-! ### A thread that finds no readable movie -/

/-- The decoder has a device, or does without. -/
def HasDevice (cfg : Config n) (i : Fin n) : Prop := cfg.fd i ≠ 0 ∨ cfg.dummy i = true

/-- All entries of decoder `i` before position `p` have been skipped. -/
def Passed (cfg : Config n) (fopen64 : Name → FopenResult) (i : Fin n) (p : ℤ) : Prop :=
  ∃ before after, entries cfg i = before ++ after ∧ p = before.length + 1 ∧
    (∀ x ∈ before, (fopen64 x).skipped = true) ∧
    (before = [] ∨ advances (cfg.playmode i) = true)

/-- Where the thread of decoder `i` is, when it never comes to a readable movie. -/
def Lagging (cfg : Config n) (fopen64 : Name → FopenResult) (i : Fin n) (d : Decoder) : Prop :=
  match d.pc with
  | .idle | .start => d.position = -1 ∧ d.fd = cfg.fd i ∧ d.dummy = cfg.dummy i
  | .loop => HasDevice cfg i ∧ (d.position = -1 ∨
      d.quit = false ∧ d.playlist = entries cfg i ∧ Passed cfg fopen64 i d.position ∧
        ∀ name ∈ (entries cfg i).pick d.position, (fopen64 name).skipped = true)
  | .quitCheck | .stopCheck | .playWait =>
    HasDevice cfg i ∧ d.quit = false ∧ Passed cfg fopen64 i d.position
  | .open =>
    HasDevice cfg i ∧ d.quit = false ∧ d.playlist = entries cfg i ∧
      Passed cfg fopen64 i d.position
  | .length => HasDevice cfg i ∧ d.quit = false ∧ d.playlistFd = none ∧
      Passed cfg fopen64 i d.position
  | .fault => HasDevice cfg i ∧ d.quit = false ∧ Passed cfg fopen64 i d.position
  | .poll (.clear .thread) | .seek (.clear .thread) | .seekSet (.clear .thread) =>
    d.position = -1
  | .clear .thread | .reopen .thread | .fclose .thread | .done => d.position = -1
  | _ => False

/-- Before the first entry there is none to be skipped. -/
theorem passed_one (cfg : Config n) (fopen64 : Name → FopenResult) (i : Fin n) :
    Passed cfg fopen64 i 1 :=
  ⟨[], entries cfg i, rfl, rfl, by simp, Or.inl rfl⟩

/-- Where no readable movie is ahead, the current entry cannot be opened. -/
theorem Passed.not_opens {i : Fin n} {p : ℤ} {name : Name} (h : Passed cfg fopen64 i p)
    (hahead : ¬ MovieAhead cfg fopen64 i) (hd : cfg.rpcdaemon = false) (hfits : Fits cfg)
    (hdev : HasDevice cfg i) (hpick : (entries cfg i).pick p = some name) :
    (fopen64 name).opens = false := by
  obtain ⟨before, after, hentries, rfl, hskip, hmode⟩ := h
  cases after with
  | nil =>
    have hnone : (entries cfg i).pick (before.length + 1) = none := by
      rw [Playlist.pick_eq_none_iff, hentries, List.append_nil]
      omega
    rw [hnone] at hpick
    cases hpick
  | cons x after =>
    rw [hentries, Playlist.pick_append_cons] at hpick
    obtain rfl := Option.some.inj hpick
    by_contra hopens
    exact hahead ⟨hd, hfits, hdev, before, x, after, hentries, by simpa using hopens, hskip, hmode⟩

/-- The thread moves on from an entry that has been skipped, or starts again. -/
theorem Passed.update {i : Fin n} {d : Decoder} (h : Passed cfg fopen64 i d.position)
    (hlist : d.playlist = entries cfg i) (hmode : d.playmode = cfg.playmode i)
    (hskip : ∀ name ∈ (entries cfg i).pick d.position, (fopen64 name).skipped = true) :
    Passed cfg fopen64 i d.update.position := by
  obtain ⟨before, after, hentries, hpos, hbefore, hadv⟩ := h
  by_cases hmove : advances d.playmode = true ∧ d.position < d.playlist.length
  · rw [update_of_advances hmove.1 (by omega) hmove.2]
    obtain ⟨x, after, rfl⟩ : ∃ x after', after = x :: after' := by
      cases after with
      | nil =>
        have hlt := hmove.2
        rw [hlist, hentries, List.append_nil] at hlt
        omega
      | cons x after => exact ⟨x, after, rfl⟩
    have hx : (fopen64 x).skipped = true := by
      refine hskip x ?_
      rw [Option.mem_def, hentries, hpos]
      exact Playlist.pick_append_cons before after x
    refine ⟨before ++ [x], after, by simp [hentries], by simp [hpos], ?_, Or.inr (hmode ▸ hmove.1)⟩
    intro y hy
    rcases List.mem_append.mp hy with hy | hy
    · exact hbefore y hy
    · rw [List.mem_singleton] at hy
      exact hy ▸ hx
  · have hstay : d.update.position = 1 ∨ d.update.position = d.position := by
      unfold Decoder.update
      rw [if_neg (by omega)]
      cases hm : d.playmode with
      | play =>
        have hend : (d.playlist.length : ℤ) ≤ d.position := by simpa [advances, hm] using hmove
        exact Or.inl (by simp [Int.lt_add_one_iff.mpr hend])
      | cont =>
        have hend : (d.playlist.length : ℤ) ≤ d.position := by simpa [advances, hm] using hmove
        exact Or.inl (by simp [hend])
      | _ => exact Or.inr rfl
    rcases hstay with hone | hsame
    · rw [hone]
      exact passed_one cfg fopen64 i
    · rw [hsame]
      exact ⟨before, after, hentries, hpos, hbefore, hadv⟩

/-- One step of the thread finds no readable movie where none is ahead. -/
theorem Lagging.step {i : Fin n} {a : Answers} {d d' : Decoder} {e : IvySync.Event}
    (h : Lagging cfg fopen64 i d) (hahead : ¬ MovieAhead cfg fopen64 i)
    (hd : cfg.rpcdaemon = false) (hfits : d.quit = false → Fits cfg)
    (hmode : d.playmode = cfg.playmode i) (hplay : d.playing = true → d.playlist = entries cfg i)
    (hreads : d.pc = .open → ∀ name ∈ d.playlist.pick d.position, a.fopen64 = fopen64 name)
    (hs : Decoder.Step a d d' e) : Lagging cfg fopen64 i d' := by
  cases hs
  case update hpc hq p st hp hst =>
    simp only [Lagging, hpc] at h
    obtain ⟨hdev, hfirst | ⟨-, hlist, hpassed, hskip⟩⟩ := h
    · have hone : p = 1 := by
        rw [← hp]
        simp [Decoder.update, hfirst]
      refine ⟨hdev, hq, ?_⟩
      rw [hone]
      exact passed_one cfg fopen64 i
    · refine ⟨hdev, hq, ?_⟩
      rw [← hp]
      exact hpassed.update hlist hmode hskip
  case noMovie hpc hm =>
    simp only [Lagging, hpc] at h
    obtain ⟨hdev, hq, hlist, hpassed⟩ := h
    refine ⟨hdev, Or.inr ⟨hq, hlist, hpassed, ?_⟩⟩
    rw [← hlist, hm]
    simp
  case opened hpc name movie hm hr =>
    simp only [Lagging, hpc] at h
    obtain ⟨hdev, hq, hlist, hpassed⟩ := h
    have hpick : (entries cfg i).pick d.position = some name := by
      rw [← hlist]
      exact hm
    have hopens := hpassed.not_opens hahead hd (hfits hq) hdev hpick
    rw [← hreads hpc name hm] at hopens
    rcases hr with hr | ⟨tmpfd, h0, hr⟩
    · simp [hr, FopenResult.opens] at hopens
    · simp [hr, FopenResult.opens, h0] at hopens
  case notOpened hpc name hm hr =>
    simp only [Lagging, hpc] at h
    obtain ⟨hdev, hq, hlist, hpassed⟩ := h
    refine ⟨hdev, Or.inr ⟨hq, hlist, hpassed, ?_⟩⟩
    intro x hx
    rw [← hlist, Option.mem_def, hm] at hx
    obtain rfl := Option.some.inj hx
    rw [← hreads hpc name hm]
    rcases hr with hr | ⟨movie, hr⟩ <;> simp [hr, FopenResult.skipped]
  case start hpc hfd =>
    simp only [Lagging, hpc] at h
    obtain ⟨hpos, hfd', hdum⟩ := h
    refine ⟨?_, Or.inl hpos⟩
    rw [HasDevice, ← hfd', ← hdum]
    by_cases h0 : d.fd = 0
    · exact Or.inr (hfd h0)
    · exact Or.inl h0
  case playPass hpc hp =>
    simp only [Lagging, hpc] at h
    obtain ⟨hdev, hq, hpassed⟩ := h
    refine ⟨hdev, hq, hplay ?_, hpassed⟩
    by_contra hnot
    simp [hp (by simpa using hnot)] at hq
  all_goals
    (try cases ‹Caller›) <;> (try cases ‹Ending›) <;>
    simp_all [Lagging, Caller.resume]

/-- Where the thread of a lagging decoder stands in its playlist. -/
theorem Lagging.position {i : Fin n} {d : Decoder} (h : Lagging cfg fopen64 i d) :
    d.position = -1 ∨ HasDevice cfg i ∧ d.quit = false ∧ Passed cfg fopen64 i d.position := by
  unfold Lagging at h
  split at h <;> first
    | exact Or.inl h
    | exact Or.inl h.1
    | exact Or.inr h
    | exact Or.inr ⟨h.1, h.2.1, h.2.2.2⟩
    | exact h.2.imp id fun h' => ⟨h.1, h'.1, h'.2.2.1⟩
    | exact h.elim

/-- What `main` has done with a decoder at each stage. -/
def Staged (cfg : Config n) (i : Fin n) (d : Decoder) : Stage → Prop
  | .fresh => d.pc = .idle ∧ d.playing = false ∧ d.playlist = cfg.files i
  | .loading rest => d.playing = false ∧ d.playlist ++ rest = entries cfg i
  | .released => d.playlist = entries cfg i

/-- A decoder that plays has its whole playlist. -/
theorem Staged.playlist {i : Fin n} {d : Decoder} {st : Stage} (h : Staged cfg i d st)
    (hplay : d.playing = true) : d.playlist = entries cfg i := by
  cases st with
  | fresh => simp [Staged, hplay] at h
  | loading rest => simp [Staged, hplay] at h
  | released => exact h

/-- Where a thread lags depends on its control point, its position and its playlist only. -/
theorem Lagging.congr {i : Fin n} {d d' : Decoder} (h : Lagging cfg fopen64 i d)
    (hpc : d'.pc = d.pc) (hpos : d'.position = d.position) (hquit : d'.quit = d.quit)
    (hdev : d'.fd = d.fd ∧ d'.dummy = d.dummy) (hstream : d'.playlistFd = d.playlistFd)
    (hlist : d.playlist = entries cfg i → d'.playlist = entries cfg i) :
    Lagging cfg fopen64 i d' := by
  unfold Lagging at h ⊢
  rw [hpc, hpos, hquit, hdev.1, hdev.2, hstream]
  split at h
  case h_3 => exact ⟨h.1, h.2.imp id fun h' => ⟨h'.1, hlist h'.2.1, h'.2.2⟩⟩
  case h_7 => exact ⟨h.1, h.2.1, hlist h.2.2.1, h.2.2.2⟩
  all_goals exact h

/-- Preparing a decoder does not move its thread. -/
theorem Prepared.keeps {i : Fin n} {d d' : Decoder} {st st' : Stage}
    (h : Prepared cfg i d st d' st') (hst : Staged cfg i d st)
    (hlag : Lagging cfg fopen64 i d) (hfits : d.quit = false → Fits cfg) :
    Staged cfg i d' st' ∧ Lagging cfg fopen64 i d' ∧ d'.playmode = d.playmode ∧
      (d'.quit = false → Fits cfg) := by
  cases h with
  | same => exact ⟨hst, hlag, rfl, hfits⟩
  | setup calloc =>
    obtain ⟨buffo, buffoSize, quit, heq, hquit⟩ :=
      Decoder.exists_setup_eq calloc cfg.videobuf d
    rw [heq]
    refine ⟨hst, ?_, rfl, ?_⟩
    · simp only [Lagging, hst.1] at hlag ⊢
      exact hlag
    · intro hq
      rcases hquit with hquit | hquit
      · exact hfits (hquit ▸ hq)
      · exact hquit
  | launch created =>
    obtain ⟨hidle, hplay, hlist⟩ := hst
    simp only [Lagging, hidle] at hlag
    refine ⟨⟨hplay, by simp [Decoder.launch, hlist, entries]⟩, ?_, rfl, hfits⟩
    cases created
    · simpa [Lagging, Decoder.launch, hidle] using hlag
    · exact hlag
  | append line rest =>
    obtain ⟨hplay, hlist⟩ := hst
    have hne : d.playlist ≠ entries cfg i := by
      intro heq
      simp [heq] at hlist
    have hlist' : (d.append line).playlist ++ rest = entries cfg i := by
      simpa [Decoder.append, Playlist.append] using hlist
    have hlag' : Lagging cfg fopen64 i (d.append line) :=
      hlag.congr rfl rfl rfl ⟨rfl, rfl⟩ rfl fun heq => absurd heq hne
    exact ⟨⟨hplay, hlist'⟩, hlag', rfl, hfits⟩
  | play =>
    have hlist : d.playlist = entries cfg i := by simpa using hst.2
    have hlag' : Lagging cfg fopen64 i d.play := hlag.congr rfl rfl rfl ⟨rfl, rfl⟩ rfl id
    exact ⟨hlist, hlag', rfl, hfits⟩

/-- The invariant of a decoder that has no readable movie ahead, in a player that is no daemon. -/
structure Quiet (cfg : Config n) (fopen64 : Name → FopenResult) (i : Fin n) (s : Process n) :
    Prop where
  daemon : s.rpcdaemon = false
  serving : ¬ Serving s.main
  playmode : (s.decoders i).playmode = cfg.playmode i
  fits : (s.decoders i).quit = false → Fits cfg
  staged : Staged cfg i (s.decoders i) (stage cfg i s.main)
  lagging : Lagging cfg fopen64 i (s.decoders i)

/-- The process starts quiet. -/
theorem quiet_init (hd : cfg.rpcdaemon = false) (i : Fin n) : Quiet cfg fopen64 i (init cfg) :=
  ⟨hd, by simp [Serving, init], rfl, by simp [init, Decoder.new], ⟨rfl, rfl, rfl⟩, rfl, rfl, rfl⟩

/-- Every step on the file system keeps the process quiet. -/
theorem Quiet.step {i : Fin n} {x : Action n} {e : Event n} (h : Quiet cfg fopen64 i s)
    (hb : cfg.build = .player) (hd : cfg.rpcdaemon = false)
    (hahead : ¬ MovieAhead cfg fopen64 i) (hreads : s.Reads fopen64 x)
    (hn : (machine cfg).next s x = some (s', e)) : Quiet cfg fopen64 i s' := by
  obtain ⟨daemon, serving, playmode, fits, staged, lagging⟩ := h
  rcases machine_cases hn with ⟨a, rfl, hs⟩ | ⟨j, a, d', e', rfl, hs, rfl, rfl⟩ |
    ⟨r, rfl, hu, rfl, rfl⟩ | ⟨r, rfl, hu, rfl, rfl⟩
  · obtain ⟨hst, hlag, hmode, hfits⟩ :=
      (hs.prepared i hb daemon serving).keeps staged lagging fits
    refine ⟨hs.rpcdaemon daemon, ?_, hmode.trans playmode, hfits, hst, hlag⟩
    intro hserving
    rcases hs.to_serving hserving with hserving | ⟨-, hdaemon⟩
    · exact serving hserving
    · simp [daemon] at hdaemon
  · by_cases hj : i = j
    · subst hj
      obtain ⟨hlist, hmode, hplay⟩ := hs.playlist
      refine ⟨daemon, serving, ?_, ?_, ?_, ?_⟩
      · rw [set_decoders_self, hmode, playmode]
      · rw [set_decoders_self, hs.quit]
        exact fits
      · rw [set_decoders_self, set_main]
        cases hstage : stage cfg i s.main with
        | fresh =>
          rw [hstage] at staged
          exact absurd staged.1 hs.pc_ne_idle
        | loading rest =>
          rw [hstage] at staged
          exact ⟨hplay staged.1, by rw [hlist]; exact staged.2⟩
        | released =>
          rw [hstage] at staged
          exact hlist.trans staged
      · rw [set_decoders_self]
        exact lagging.step (a := { a with syncstart := s.syncstart }) hahead hd fits playmode
          staged.playlist hreads hs
    · refine ⟨daemon, serving, ?_, ?_, ?_, ?_⟩ <;> rw [set_decoders_of_ne s d' hj]
      · exact playmode
      · exact fits
      · exact staged
      · exact lagging
  · exact ⟨daemon, serving, playmode, fits, staged, lagging⟩
  · exact ⟨daemon, serving, playmode, fits, staged, lagging⟩

/-- Outside of the XMLRPC build the option `-x` stays what it is. -/
theorem rpcdaemon_run (hb : cfg.build = .player) {tr : List (Action n × Event n)}
    (h : (machine cfg).Run (init cfg) tr s) : s.rpcdaemon = cfg.rpcdaemon := by
  refine h.invariant (I := fun s => s.rpcdaemon = cfg.rpcdaemon) ?_ rfl
  intro s x t e hI _ hn
  rcases machine_cases hn with ⟨a, rfl, hs⟩ | ⟨j, a, d', e', rfl, hs, rfl, rfl⟩ |
    ⟨r, rfl, hu, rfl, rfl⟩ | ⟨r, rfl, hu, rfl, rfl⟩
  · cases hs
    case begin hm hn daemon hdaemon => simpa [hb, hI] using hdaemon
    all_goals exact hI
  all_goals exact hI

/-- In the standalone player every decoder with a readable movie waits at the sync test when `main`
raises `syncstart`, for every interleaving, exactly when no decoder can come to a readable movie. -/
theorem barrier_iff (hb : cfg.build = .player) :
    Barrier cfg fopen64 ↔ ∀ i, ¬ MovieAhead cfg fopen64 i := by
  constructor
  · intro h i hahead
    exact hahead.not_barrier hb h
  · intro hahead tr s s' x hrun hn i name hpick hopens
    have hm : s.main = .raise := by
      rcases machine_cases hn with ⟨a, rfl, hs⟩ | ⟨j, a, d', e', rfl, hs, rfl, he⟩ |
        ⟨r, rfl, hu, rfl, he⟩ | ⟨r, rfl, hu, rfl, he⟩
      · cases hs with
        | raise hm => exact hm
      all_goals cases he
    have hd : cfg.rpcdaemon = false := by
      rw [← rpcdaemon_run hb hrun.run]
      exact ((signalled_run hrun.run).main (Or.inl hm)).1
    have hquiet : Quiet cfg fopen64 i s := by
      refine hrun.invariant (I := Quiet cfg fopen64 i) ?_ (quiet_init hd i)
      intro s x t e hI hC hn
      exact hI.step hb hd (hahead i) hC hn
    have hlist : (s.decoders i).playlist = entries cfg i := by
      have hstaged := hquiet.staged
      rw [hm] at hstaged
      exact hstaged
    rcases hquiet.lagging.position with hpos | ⟨hdev, hq, hpassed⟩
    · rw [hpos, Playlist.pick_eq_none_iff.mpr (by omega)] at hpick
      cases hpick
    · have hnot := hpassed.not_opens (hahead i) hd (hquiet.fits hq) hdev (hlist ▸ hpick)
      simp [hopens] at hnot

/-- With one decoder and one entry the barrier stands if the entry cannot be opened, and does not
if it can. -/
theorem barrier_solo :
    Barrier (solo .player false) (fun _ => .failed) ∧
      ¬ Barrier (solo .player false) (fun _ => .stream []) := by
  constructor
  · refine (barrier_iff rfl).mpr ?_
    intro i hahead
    obtain ⟨-, -, -, _, _, _, -, hopens, -⟩ := hahead
    cases hopens
  · intro h
    refine (barrier_iff rfl).mp h 0 ⟨rfl, ?_, Or.inl (by decide), [], [97], [], rfl, rfl, ?_, ?_⟩
    · unfold Fits
      decide
    · simp
    · exact Or.inl rfl

/-- `main` raises `syncstart` when the thread of the only decoder has just taken its movie from the
playlist. -/
theorem not_barrier_of_readable :
    ¬ ∀ (n : ℕ) (cfg : Config n) (fopen64 : Name → FopenResult), cfg.build = .player →
      Barrier cfg fopen64 := by
  have hexec : (machine (solo .player false)).Reaches
      (Reads fun _ => .stream (List.replicate 2048 7)) (init (solo .player false))
      (List.replicate 7 (.main {}) ++ List.replicate 2 (.thread 0 {}))
      fun _ s => (s.decoders 0).playlist.pick (s.decoders 0).position = some [97] ∧
        (s.decoders 0).pc = .quitCheck ∧
        ∃ q ∈ (machine (solo .player false)).next s (.main {}), q.2 = .raised := by
    decide +kernel
  obtain ⟨tr, s, h, hpick, hpc, ⟨s', e⟩, hn, rfl⟩ := hexec.exists_runOn
  intro hall
  have hat := hall 1 _ _ rfl tr s s' _ h (Option.mem_def.mp hn) 0 [97] hpick rfl
  rw [hpc] at hat
  cases hat

end Process

end IvySync

import IvySync.Decoder.Lookup
import IvySync.Utils

/-!
# The playmodes and the front ends

The option `-p` of the command line and the menu of the graphical interface set the playmode, each
in its own way: one compares strings, the other takes the row of the menu for the number of the
mode.  `Shows` says what a user may expect of the three behaviours that both of them name.

A thread that nobody disturbs moves its position at each end of a movie and at no other time
(`Ring`), so that the positions it plays are those that `update` goes through (`turns`).  From this
`shows_iff` tells where the behaviour is the one that was named.
-/

namespace IvySync

/-! ### The front ends -/

namespace Playmode

/-- The names that the option `-p` compares its argument with. -/
def playName : Name := [112, 108, 97, 121]
def contName : Name := [99, 111, 110, 116]
def loopName : Name := [108, 111, 111, 112]
def randName : Name := [114, 97, 110, 100]
def singleName : Name := [115, 105, 110, 103, 108, 101]

/-- The mode with a number; `update` takes a number without a name as it takes `SINGLE`. -/
def ofNumber : ℤ → Playmode
  | 1 => .play
  | 2 => .cont
  | 3 => .loop
  | 4 => .rand
  | _ => .single

end Playmode

open Playmode in
/-- The option `-p` in `cmdline`; a name that is not recognized changes nothing. -/
def cmdline (optarg : Name) (d : Decoder) : Decoder :=
  if strncasecmp optarg playName 4 then { d with playmode := .play }
  else if strncasecmp optarg contName 4 then { d with playmode := .cont }
  else if strncasecmp optarg loopName 4 then { d with playmode := .loop }
  else if strncasecmp optarg randName 4 then { d with playmode := .rand }
  else if strncasecmp optarg singleName 6 then { d with playmode := .single }
  else d

/-- The rows of the menu in the graphical interface, from the top. -/
def playmodeMenu : List String := ["once", "loop", "continuous"]

/-- `on_set_playmode` with the row of the menu that has been chosen, `-1` for none. -/
def onSetPlaymode (mode : ℤ) (d : Decoder) : Decoder :=
  if mode ≠ -1 then { d with playmode := Playmode.ofNumber (mode + 1) } else d

/-- The behaviours that both front ends name. -/
inductive Behaviour
  /-- From entry to entry, and from the last one to the first. -/
  | continuous
  /-- The same entry over and over. -/
  | loop
  /-- Every entry once. -/
  | once
  deriving DecidableEq, Repr

/-- A choice of one of the behaviours by its name. -/
inductive Choice
  | option (b : Behaviour)
  | menu (b : Behaviour)
  deriving DecidableEq, Repr

namespace Choice

/-- The behaviour that was named. -/
def behaviour : Choice → Behaviour
  | option b => b
  | menu b => b

/-- The argument of `-p` that names a behaviour. -/
def optarg : Behaviour → Name
  | .continuous => Playmode.contName
  | .loop => Playmode.loopName
  | .once => Playmode.playName

/-- The row of the menu that names a behaviour. -/
def label : Behaviour → String
  | .continuous => "continuous"
  | .loop => "loop"
  | .once => "once"

/-- Make the choice. -/
def make (d : Decoder) : Choice → Decoder
  | option b => cmdline (optarg b) d
  | menu b => onSetPlaymode (playmodeMenu.idxOf (label b)) d

/-- What the choices come to: on the command line each name leads to the mode of that name, in the
menu the modes of `loop` and `continuous` have changed places. -/
theorem make_eq (c : Choice) (d : Decoder) :
    c.make d = { d with playmode :=
      match c with
      | option .continuous => .cont
      | option .loop => .loop
      | option .once => .play
      | menu .continuous => .loop
      | menu .loop => .cont
      | menu .once => .play } := by
  rcases c with b | b <;> cases b <;> rfl

end Choice

namespace Decoder

variable {d d' : Decoder} {a : Answers} {e : Event} {k n : ℕ} {tr : List (Action × Event)}

/-! ### A thread that nobody disturbs -/

/-- Only the thread acts, and every file can be opened. -/
def Unattended (d : Decoder) : Action → Prop
  | .thread a => d.pc = .open → a.fopen64.opens = true
  | .request _ => False

instance (d : Decoder) (x : Action) : Decidable (Unattended d x) :=
  match x with
  | .thread a => inferInstanceAs (Decidable (d.pc = .open → a.fopen64.opens = true))
  | .request _ => inferInstanceAs (Decidable False)

/-- The number of movies that have come to their end in a trace. -/
def ends (tr : List (Action × Event)) : ℕ := tr.countP fun y => y.2 = .closed

@[simp] theorem ends_nil : ends [] = 0 := rfl

@[simp] theorem ends_append (tr tr' : List (Action × Event)) :
    ends (tr ++ tr') = ends tr + ends tr' := List.countP_append ..

@[simp] theorem ends_cons (x : Action) (e : Event) (tr : List (Action × Event)) :
    ends ((x, e) :: tr) = ends tr + if e = .closed then 1 else 0 := by
  simp [ends, List.countP_cons]

/-- The thread has come to look up the next movie, after `k` ends of movies. -/
def After (d : Decoder) (k : ℕ) (d' : Decoder) : Prop :=
  ∃ tr, machine.RunOn Unattended d tr d' ∧ ends tr = k ∧ d'.pc = .playWait

/-- The thread plays and is at the head of its loop; no movie has played yet, or, for the behaviour
that stays on an entry, one of the entries is the current one. -/
structure Ready (b : Behaviour) (d : Decoder) : Prop where
  pc : d.pc = .loop
  playing : d.playing = true
  stopped : d.stopped = false
  quit : d.quit = false
  nonempty : d.playlist ≠ []
  position : d.position = -1 ∨ b = .loop ∧ 1 ≤ d.position ∧ d.position ≤ d.playlist.length

/-- The current entry: the first one if no movie has played yet. -/
def current (d : Decoder) : ℤ := if d.position < 0 then 1 else d.position

/-- What the name of a behaviour promises, for any number of movie ends. -/
def Shows (b : Behaviour) (d : Decoder) : Prop :=
  match b with
  | .continuous =>
    ∀ k, (∃ d', After d k d') ∧
      ∀ d', After d k d' → d'.position = (k % d.playlist.length : ℕ) + 1
  | .loop => ∀ k, (∃ d', After d k d') ∧ ∀ d', After d k d' → d'.position = d.current
  | .once =>
    ∀ k ≤ d.playlist.length, (∃ d', After d k d') ∧ ∀ d', After d k d' →
      if k < d.playlist.length then d'.position = k + 1 ∧ d'.playing = true
      else d'.playing = false

/-! ### The positions of a thread that nobody disturbs -/

/-- The position after `k` updates. -/
def turns (d : Decoder) : ℕ → ℤ
  | 0 => d.position
  | k + 1 => ({ d with position := turns d k } : Decoder).update.position

/-- The modes in which `update` does not stop the decoder. -/
def Unstopped (mode : Playmode) : Prop := mode = .play ∨ mode = .cont ∨ mode = .loop

/-- In these modes `update` changes the position only. -/
theorem update_of_unstopped (h : Unstopped d.playmode) :
    d.update = { d with position := d.update.position } := by
  rw [update_eq]
  congr 1
  unfold update
  rcases h with h | h | h <;> rw [h] <;> dsimp only <;> split_ifs <;> rfl

/-- The thread is past `update`, on its way to the end of a movie. -/
def turning : Control → Bool
  | .idle | .start | .loop | .done | .fault => false
  | .clear e | .reopen e | .fclose e => e = .movie
  | .poll (.clear e) | .seek (.clear e) | .seekSet (.clear e) => e = .movie
  | _ => true

/-- Where the position of a thread that nobody disturbs is, after `k` ends of movies. -/
structure Ring (d : Decoder) (k : ℕ) (d' : Decoder) : Prop where
  playlist : d'.playlist = d.playlist
  playmode : d'.playmode = d.playmode
  playing : d'.playing = true
  stopped : d'.stopped = false
  quit : d'.quit = false
  place : d'.pc = .fault ∨ d'.pc = .loop ∧ d'.position = turns d k ∨
    turning d'.pc = true ∧ d'.position = turns d (k + 1)

/-- Where `update` moves to depends on the position, the playmode and the playlist only. -/
theorem update_position_congr (hposition : d.position = d'.position)
    (hmode : d.playmode = d'.playmode) (hlist : d.playlist = d'.playlist) :
    d.update.position = d'.update.position := by
  rcases Int.lt_or_le d.position 0 with hneg | hpos
  · rw [update_position_first hneg, update_position_first (hposition ▸ hneg)]
  · have hpos' : 0 ≤ d'.position := hposition ▸ hpos
    cases hm : d.playmode.stays with
    | true => rw [update_position_stays hpos hm, update_position_stays hpos' (hmode ▸ hm), hposition]
    | false =>
      rw [update_position_next hpos hm, update_position_next hpos' (hmode ▸ hm), hposition, hlist]

/-- The update at the head of the loop is the next turn. -/
theorem Ring.update (h : Ring d k d') (hpc : d'.pc = .loop) :
    d'.update.position = turns d (k + 1) := by
  have hpos : d'.position = turns d k := by
    rcases h.place with hfault | ⟨-, hpos⟩ | ⟨hturn, -⟩
    · rw [hpc] at hfault
      cases hfault
    · exact hpos
    · rw [hpc] at hturn
      cases hturn
  exact update_position_congr hpos h.playmode h.playlist

/-- One step of the thread keeps the position where the turns put it. -/
theorem Ring.step (h : Ring d k d') {d'' : Decoder} (hmode : Unstopped d.playmode)
    (hin : 1 ≤ turns d (k + 1) ∧ turns d (k + 1) ≤ d.playlist.length)
    (hopens : d'.pc = .open → a.fopen64.opens = true) (hs : Step a d' d'' e) :
    Ring d (k + if e = .closed then 1 else 0) d'' := by
  obtain ⟨playlist, playmode, playing, hstopped, quit, place⟩ := h
  cases hs
  case update hpc hq position stopped hp hst =>
    have hkeep : d'.update.stopped = d'.stopped := by
      rw [update_of_unstopped (playmode ▸ hmode)]
    refine ⟨playlist, playmode, playing, by rw [← hst, hkeep, hstopped], quit,
      Or.inr (Or.inr ⟨rfl, ?_⟩)⟩
    rw [← hp]
    exact Ring.update ⟨playlist, playmode, playing, hstopped, quit, place⟩ hpc
  case noMovie hpc hm =>
    have hpos : d'.position = turns d (k + 1) := by simpa [hpc, turning] using place
    rw [hpos, playlist, Playlist.pick_eq_none_iff] at hm
    omega
  case notOpened hpc name hm hr =>
    have hopen := hopens hpc
    rcases hr with hr | ⟨movie, hr⟩ <;> simp [hr, FopenResult.opens] at hopen
  case nullStream hpc name hm hr =>
    have hopen := hopens hpc
    obtain ⟨tmpfd, _, hr⟩ := hr
    simp [hr, FopenResult.opens] at hopen
  -- the other branches leave these fields alone, and only the end of a movie leads to the next turn
  all_goals
    first
    | (simp_all; done)
    | (try cases ‹Caller›) <;> (try cases ‹Ending›) <;>
        exact ⟨playlist, playmode, by simp_all, by simp_all, by simp_all,
          by simp_all [turning, Caller.resume]⟩

/-- A run of a thread that nobody disturbs keeps to the turns. -/
theorem ring_of_runOn (hd : Ring d 0 d) (hmode : Unstopped d.playmode)
    (hin : ∀ k, 1 ≤ turns d (k + 1) ∧ turns d (k + 1) ≤ d.playlist.length)
    (h : machine.RunOn Unattended d tr d') : Ring d (ends tr) d' := by
  refine h.invariant_trace (I := fun tr t => Ring d (ends tr) t) ?_ hd
  intro tr s x t e hring hC hn
  cases x with
  | request r => exact hC.elim
  | thread a =>
    obtain ⟨a', hx, -, hs⟩ | ⟨r, hx, -⟩ := machine_cases hn
    · cases hx
      rw [ends_append, ends_cons, ends_nil, Nat.zero_add]
      exact hring.step hmode (hin (ends tr)) hC hs
    · cases hx

/-! ### There are such threads -/

/-- A movie without a byte, on a device that has taken all it was given. -/
def noBytes : Answers := { fopen64 := .stream [], poll := ⟨0, true⟩ }

/-- One step of a thread that nobody disturbs, on such a movie. -/
theorem unattended_cons {d₁ d₂ : Decoder} (halive : d.alive = true)
    (hstep : d.step noBytes = (d₁, e)) (h : machine.RunOn Unattended d₁ tr d₂) :
    machine.RunOn Unattended d ((.thread noBytes, e) :: tr) d₂ := by
  refine Machine.RunOn.cons (fun _ => rfl) ?_ h
  simp only [machine]
  rw [if_pos halive, hstep]

/-- From the head of the loop a thread comes to look up a movie. -/
theorem exists_lookup (hpc : d.pc = .loop) (hq : d.quit = false) (hs : d.stopped = false)
    (hmode : Unstopped d.playmode) :
    ∃ tr d', machine.RunOn Unattended d tr d' ∧ ends tr = 0 ∧ d'.pc = .playWait := by
  have hupdate := update_of_unstopped hmode
  generalize d.update.position = position at hupdate
  let d₁ : Decoder := { d with position := position, pc := .quitCheck }
  let d₂ : Decoder := { d with position := position, pc := .stopCheck }
  let d₃ : Decoder := { d with position := position, pc := .playWait }
  have h₀ : d.step noBytes = (d₁, .silent) := by simp [step, hpc, hq, hupdate, d₁]
  have h₁ : d₁.step noBytes = (d₂, .silent) := by simp [step, hq, d₁, d₂]
  have h₂ : d₂.step noBytes = (d₃, .silent) := by simp [step, hs, d₂, d₃]
  have halive : d.alive = true := by simp [alive, hpc]
  refine ⟨_, d₃, unattended_cons halive h₀ (unattended_cons rfl h₁ (unattended_cons rfl h₂
    Machine.RunOn.nil)), ?_, rfl⟩
  simp

/-- From there it opens the movie and meets its end at once. -/
theorem exists_endOfFile (hpc : d.pc = .playWait) (hp : d.playing = true) (hq : d.quit = false)
    (hs : d.stopped = false) (hm : (d.playlist.pick d.position).isSome) :
    ∃ tr d', machine.RunOn Unattended d tr d' ∧ ends tr = 0 ∧ d'.pc = .clear .movie := by
  obtain ⟨name, hm⟩ := Option.isSome_iff_exists.mp hm
  let f : FILE := ⟨[], 0, false⟩
  let d₁ : Decoder := { d with pc := .open }
  let d₂ : Decoder := { d with playlistFd := some f, pc := .length }
  let d₃ : Decoder := { d₂ with filesize := 0, filepos := 0, pc := .readTop }
  let d₄ : Decoder := { d₃ with pc := .pauseWait }
  let d₅ : Decoder := { d₃ with pc := .read }
  have h₀ : d.step noBytes = (d₁, .silent) := by simp [step, hpc, hp, d₁]
  have h₁ : d₁.step noBytes = (d₂, .opened name) := by
    simp [step, openMovie, hm, noBytes, d₁, d₂, f]
  have h₂ : d₂.step noBytes = (d₃, .silent) := by simp [step, measure, FILE.fseek, d₂, d₃, f]
  have h₃ : d₃.step noBytes = (d₄, .silent) := by simp [step, hq, hs, d₂, d₃, d₄]
  have h₄ : d₄.step noBytes = (d₅, .silent) := by simp [step, hp, d₂, d₃, d₄, d₅]
  have h₅ : d₅.step noBytes = ({ d₅ with
      inBytes := 0, playlistFd := some (f.fread (sizeT d.buffoSize)).2, pc := .clear .movie },
      .endOfFile []) := by
    simp [step, readChunk, FILE.fread, d₂, d₃, d₅, f]
  have halive : d.alive = true := by simp [alive, hpc]
  refine ⟨_, _, unattended_cons halive h₀ (unattended_cons rfl h₁ (unattended_cons rfl h₂
    (unattended_cons rfl h₃ (unattended_cons rfl h₄ (unattended_cons rfl h₅
      Machine.RunOn.nil))))), ?_, rfl⟩
  simp

/-- At the end of a movie the thread closes it and is at the head of its loop again. -/
theorem exists_closed (hpc : d.pc = .clear .movie) :
    ∃ tr d', machine.RunOn Unattended d tr d' ∧ ends tr = 1 ∧ d'.pc = .loop := by
  have halive : d.alive = true := by simp [alive, hpc]
  have hclose : ∀ d : Decoder, d.pc = .fclose .movie →
      ∃ tr d', machine.RunOn Unattended d tr d' ∧ ends tr = 1 ∧ d'.pc = .loop := by
    intro d hpc
    have hstep : d.step noBytes = ({ d with playlistFd := none, pc := .loop }, .closed) := by
      simp [step, hpc]
    exact ⟨_, _, unattended_cons (by simp [alive, hpc]) hstep Machine.RunOn.nil, by simp, rfl⟩
  by_cases hfd : d.fd = 0
  · have h₀ : d.step noBytes = ({ d with pc := .fclose .movie }, .silent) := by
      simp [step, hpc, hfd]
    obtain ⟨tr, d', hrun, hends, hloop⟩ := hclose { d with pc := .fclose .movie } rfl
    exact ⟨_, d', unattended_cons halive h₀ hrun, by simp [hends], hloop⟩
  · let d₁ : Decoder := { d with pc := .poll (.clear .movie) }
    let d₂ : Decoder := { d with pc := .reopen .movie }
    have h₀ : d.step noBytes = (d₁, .silent) := by simp [step, hpc, hfd, d₁]
    have h₁ : d₁.step noBytes = (d₂, .silent) := by
      simp [step, pollDevice, noBytes, Caller.resume, d₁, d₂]
    have h₂ : d₂.step noBytes = ({ d with fd := 1, pc := .fclose .movie }, .silent) := by
      simp [step, noBytes, d₂]
    obtain ⟨tr, d', hrun, hends, hloop⟩ := hclose { d with fd := 1, pc := .fclose .movie } rfl
    exact ⟨_, d', unattended_cons halive h₀ (unattended_cons rfl h₁ (unattended_cons rfl h₂ hrun)),
      by simp [hends], hloop⟩

/-- However many movies are to come to their end, there is a thread that nobody disturbs and that
gets there. -/
theorem exists_after (hd : Ring d 0 d) (hpc : d.pc = .loop) (hmode : Unstopped d.playmode)
    (hin : ∀ k, 1 ≤ turns d (k + 1) ∧ turns d (k + 1) ≤ d.playlist.length) (k : ℕ) :
    ∃ d', After d k d' := by
  suffices h : ∃ tr d', machine.RunOn Unattended d tr d' ∧ ends tr = k ∧ d'.pc = .loop by
    obtain ⟨tr, d₁, hrun, hends, hloop⟩ := h
    have hring := ring_of_runOn hd hmode hin hrun
    obtain ⟨tr', d₂, hrun', hends', hwait⟩ :=
      exists_lookup hloop hring.quit hring.stopped (hring.playmode ▸ hmode)
    exact ⟨d₂, tr ++ tr', hrun.append hrun', by rw [ends_append, hends, hends', Nat.add_zero],
      hwait⟩
  induction k with
  | zero => exact ⟨[], d, Machine.RunOn.nil, rfl, hpc⟩
  | succ k ih =>
    obtain ⟨tr, d₁, hrun, hends, hloop⟩ := ih
    have hring := ring_of_runOn hd hmode hin hrun
    obtain ⟨tr₁, d₂, hrun₁, hends₁, hwait⟩ :=
      exists_lookup hloop hring.quit hring.stopped (hring.playmode ▸ hmode)
    have hring₂ := ring_of_runOn hd hmode hin (hrun.append hrun₁)
    have hpos : d₂.position = turns d (ends (tr ++ tr₁) + 1) := by
      simpa [hwait, turning] using hring₂.place
    have hm : (d₂.playlist.pick d₂.position).isSome := by
      rw [Option.isSome_iff_ne_none]
      intro hnone
      rw [hpos, hring₂.playlist, Playlist.pick_eq_none_iff] at hnone
      have := hin (ends (tr ++ tr₁))
      omega
    obtain ⟨tr₂, d₃, hrun₂, hends₂, hclear⟩ :=
      exists_endOfFile hwait hring₂.playing hring₂.quit hring₂.stopped hm
    obtain ⟨tr₃, d₄, hrun₃, hends₃, hloop'⟩ := exists_closed hclear
    refine ⟨tr ++ tr₁ ++ tr₂ ++ tr₃, d₄, ((hrun.append hrun₁).append hrun₂).append hrun₃, ?_, hloop'⟩
    simp only [ends_append, hends, hends₁, hends₂, hends₃]

/-! ### The turns -/

/-- The first turn is the first entry. -/
theorem turns_succ_first (h : turns d k < 0) : turns d (k + 1) = 1 :=
  update_position_first (d := { d with position := turns d k }) h

/-- In the modes that stay the other turns are the same again. -/
theorem turns_succ_stays (h : 0 ≤ turns d k) (hm : d.playmode.stays = true) :
    turns d (k + 1) = turns d k :=
  update_position_stays (d := { d with position := turns d k }) h hm

/-- In the other modes they are the next entry, or the first one behind the last. -/
theorem turns_succ_next (h : 0 ≤ turns d k) (hm : d.playmode.stays = false) :
    turns d (k + 1) =
      if (d.playlist.length : ℤ) ≤ turns d k then 1 else turns d k + 1 :=
  update_position_next (d := { d with position := turns d k }) h hm

/-- The turns do not leave the playlist. -/
theorem turns_mem (hne : d.playlist ≠ [])
    (hpos : d.position = -1 ∨ 1 ≤ d.position ∧ d.position ≤ d.playlist.length) (k : ℕ) :
    1 ≤ turns d (k + 1) ∧ turns d (k + 1) ≤ d.playlist.length := by
  have hstep : ∀ p : ℤ, p = -1 ∨ 1 ≤ p ∧ p ≤ d.playlist.length →
      1 ≤ ({ d with position := p } : Decoder).update.position ∧
        ({ d with position := p } : Decoder).update.position ≤ d.playlist.length := by
    intro p hp
    constructor
    · refine one_le_update fun h => ?_
      dsimp only at h ⊢
      omega
    · refine (update_le_iff (d := { d with position := p }) hne).mpr fun _ => ?_
      dsimp only
      omega
  induction k with
  | zero => exact hstep _ hpos
  | succ k ih => exact hstep _ (Or.inr ih)

/-- In the modes that stay every turn is the current entry. -/
theorem turns_stays (hm : d.playmode.stays = true)
    (hpos : d.position = -1 ∨ 1 ≤ d.position) (k : ℕ) : turns d (k + 1) = d.current := by
  induction k with
  | zero =>
    rcases hpos with hpos | hpos
    · rw [turns_succ_first (by rw [turns]; omega), current, if_pos (by omega)]
    · rw [turns_succ_stays (by rw [turns]; omega) hm, current, if_neg (by omega), turns]
  | succ k ih =>
    have hcurrent : 1 ≤ d.current := by
      unfold current
      split_ifs <;> omega
    rw [turns_succ_stays (by omega) hm, ih]

/-- In the other modes the turns go round the playlist, from its first entry on. -/
theorem turns_next (hm : d.playmode.stays = false) (hpos : d.position = -1)
    (hne : d.playlist ≠ []) (k : ℕ) :
    turns d (k + 1) = (k % d.playlist.length : ℕ) + 1 := by
  have hlength : 0 < d.playlist.length := List.length_pos_iff.mpr hne
  induction k with
  | zero =>
    rw [turns_succ_first (by rw [turns]; omega), Nat.zero_mod]
    rfl
  | succ k ih =>
    have hlt := Nat.mod_lt k hlength
    rw [turns_succ_next (by omega) hm, ih]
    split_ifs with hend
    · have hlast : k % d.playlist.length + 1 = d.playlist.length := by omega
      rw [← Nat.mod_add_mod, hlast, Nat.mod_self]
      rfl
    · have hmiddle : k % d.playlist.length + 1 < d.playlist.length := by omega
      rw [← Nat.mod_add_mod, Nat.mod_eq_of_lt hmiddle]
      push_cast
      rfl

/-- Where a thread is that nobody disturbs: at the turn that follows the movies that have ended, and
still playing. -/
theorem after_eq {b : Behaviour} {mode : Playmode} (hd : Ready b d) (hmode : Unstopped mode)
    (k : ℕ) :
    (∃ d', After { d with playmode := mode } k d') ∧
      ∀ d', After { d with playmode := mode } k d' →
        d'.position = turns { d with playmode := mode } (k + 1) ∧ d'.playing = true := by
  obtain ⟨pc, playing, stopped, quit, nonempty, position⟩ := hd
  have hpos : d.position = -1 ∨ 1 ≤ d.position ∧ d.position ≤ d.playlist.length :=
    position.imp id fun h => h.2
  have hin := turns_mem (d := { d with playmode := mode }) nonempty hpos
  have hring : Ring { d with playmode := mode } 0 { d with playmode := mode } :=
    ⟨rfl, rfl, playing, stopped, quit, Or.inr (Or.inl ⟨pc, rfl⟩)⟩
  refine ⟨exists_after hring pc hmode hin k, ?_⟩
  rintro d' ⟨tr, hrun, hends, hwait⟩
  have hend := ring_of_runOn hring hmode hin hrun
  refine ⟨?_, hend.playing⟩
  simpa [hwait, turning, hends] using hend.place

/-! ### What was named and what is shown -/

/-- No front end plays every entry once: the playlist starts again. -/
theorem not_shows_once (hd : Ready .once d) : ¬ Shows .once { d with playmode := .play } := by
  intro h
  obtain ⟨⟨d', hafter⟩, hall⟩ := h d.playlist.length (le_refl _)
  have hstop : d'.playing = false := by simpa using hall d' hafter
  have hplay := ((after_eq hd (Or.inl rfl) _).2 d' hafter).2
  rw [hplay] at hstop
  cases hstop

/-- The mode `CONT` goes round the playlist. -/
theorem shows_continuous (hd : Ready .continuous d) :
    Shows .continuous { d with playmode := .cont } := by
  have hpos : d.position = -1 := by simpa using hd.position
  intro k
  obtain ⟨hex, hall⟩ := after_eq hd (Or.inr (Or.inl rfl)) k
  refine ⟨hex, fun d' hafter => ?_⟩
  rw [(hall d' hafter).1]
  exact turns_next (d := { d with playmode := .cont }) rfl hpos hd.nonempty k

/-- The mode `LOOP` stays on an entry. -/
theorem shows_loop (hd : Ready .loop d) : Shows .loop { d with playmode := .loop } := by
  have hpos : d.position = -1 ∨ 1 ≤ d.position := hd.position.imp id fun h => h.2.1
  intro k
  obtain ⟨hex, hall⟩ := after_eq hd (Or.inr (Or.inr rfl)) k
  refine ⟨hex, fun d' hafter => ?_⟩
  rw [(hall d' hafter).1]
  exact turns_stays (d := { d with playmode := .loop }) rfl hpos k

/-- The mode `LOOP` goes round a playlist of one entry only. -/
theorem shows_continuous_loop_iff (hd : Ready .continuous d) :
    Shows .continuous { d with playmode := .loop } ↔ d.playlist.length = 1 := by
  have hpos : d.position = -1 := by simpa using hd.position
  have hturns : ∀ k, turns { d with playmode := .loop } (k + 1) = 1 := by
    intro k
    rw [turns_stays (d := { d with playmode := .loop }) rfl (Or.inl hpos), current,
      if_pos (by dsimp only; omega)]
  constructor
  · intro h
    obtain ⟨⟨d', hafter⟩, hall⟩ := h 1
    have hone : d'.position = (1 % d.playlist.length : ℕ) + 1 := hall d' hafter
    rw [((after_eq hd (Or.inr (Or.inr rfl)) 1).2 d' hafter).1, hturns] at hone
    have hmod : 1 % d.playlist.length = 0 := by omega
    exact Nat.dvd_one.mp (Nat.dvd_of_mod_eq_zero hmod)
  · intro hlength k
    obtain ⟨hex, hall⟩ := after_eq hd (Or.inr (Or.inr rfl)) k
    refine ⟨hex, fun d' hafter => ?_⟩
    rw [(hall d' hafter).1, hturns, hlength, Nat.mod_one]
    rfl

/-- The mode `CONT` stays on an entry only if there is no other. -/
theorem shows_loop_cont_iff (hd : Ready .loop d) :
    Shows .loop { d with playmode := .cont } ↔ d.playlist.length = 1 := by
  have hpos : d.position = -1 ∨ 1 ≤ d.position ∧ d.position ≤ d.playlist.length :=
    hd.position.imp id fun h => h.2
  have hlength : 0 < d.playlist.length := List.length_pos_iff.mpr hd.nonempty
  constructor
  · intro h
    have hturns : ∀ k, turns { d with playmode := .cont } (k + 1) = d.current := by
      intro k
      obtain ⟨⟨d', hafter⟩, hall⟩ := h k
      rw [← ((after_eq hd (Or.inr (Or.inl rfl)) k).2 d' hafter).1]
      exact hall d' hafter
    have h0 : turns { d with playmode := .cont } 1 = d.current := hturns 0
    have h1 : turns { d with playmode := .cont } 2 = d.current := hturns 1
    have hcurrent : 1 ≤ d.current := by
      unfold current
      split_ifs <;> omega
    have hnext := turns_succ_next (d := { d with playmode := .cont }) (k := 1) (by omega) rfl
    rw [h0, h1] at hnext
    dsimp only at hnext
    split_ifs at hnext with hend <;> omega
  · intro hone k
    obtain ⟨hex, hall⟩ := after_eq hd (Or.inr (Or.inl rfl)) k
    refine ⟨hex, fun d' hafter => ?_⟩
    have hin := turns_mem (d := { d with playmode := .cont }) hd.nonempty hpos k
    have hcurrent : d.current = 1 := by
      unfold current
      split_ifs <;> omega
    rw [(hall d' hafter).1]
    dsimp only at hin
    have : turns { d with playmode := .cont } (k + 1) = 1 := by omega
    rw [this]
    exact hcurrent.symm

/-- The behaviour is the one that was named exactly if it is not the last one and if either it was
named on the command line or there is one entry only. -/
theorem shows_iff (c : Choice) (hd : Ready c.behaviour d) :
    Shows c.behaviour (c.make d) ↔
      c.behaviour ≠ .once ∧ ((∃ b, c = .option b) ∨ d.playlist.length = 1) := by
  rw [Choice.make_eq]
  rcases c with b | b <;> cases b
  · simpa [Choice.behaviour] using shows_continuous hd
  · simpa [Choice.behaviour] using shows_loop hd
  · simpa [Choice.behaviour] using not_shows_once hd
  · simpa [Choice.behaviour] using shows_continuous_loop_iff hd
  · simpa [Choice.behaviour] using shows_loop_cont_iff hd
  · simpa [Choice.behaviour] using not_shows_once hd

/-- A thread at the head of its loop, with a playlist of two entries. -/
def twoEntries : Decoder := { new 3 false .cont [[97], [98]] with
  pc := .loop, playing := true, quit := false }

/-- On the command line `cont` is continuous. -/
theorem shows_cont : Shows .continuous (Choice.make twoEntries (.option .continuous)) :=
  (shows_iff (.option .continuous)
    ⟨rfl, rfl, rfl, rfl, by decide, Or.inl rfl⟩).mpr ⟨by decide, Or.inl ⟨_, rfl⟩⟩

/-- In the menu `continuous` is not: the first entry plays again. -/
theorem not_shows : ¬ ∀ (c : Choice) (d : Decoder),
    Ready c.behaviour d → Shows c.behaviour (c.make d) := by
  intro h
  have hrun : machine.Reaches Unattended (Choice.make twoEntries (.menu .continuous))
      (List.replicate 16 (.thread noBytes))
      (fun tr d => ends tr = 1 ∧ d.pc = .playWait ∧ d.position = 1) := by
    decide +kernel
  obtain ⟨tr, d', hrun, hends, hwait, hpos⟩ := hrun.exists_runOn
  have hshows := h (.menu .continuous) twoEntries ⟨rfl, rfl, rfl, rfl, by decide, Or.inl rfl⟩
  have hsecond : d'.position = 2 := (hshows 1).2 d' ⟨tr, hrun, hends, hwait⟩
  omega

end Decoder

end IvySync

import IvySync.Decoder.Stop

/-!
# Seeks and the movies they are meant for

A pending seek is cleared in `flush` only, and `clear` runs it once more at the end of a movie.  What
is asked for after that, or while no movie is open, is still pending when the next movie begins, and
so is what a `clear` without a device or an impatient `flush` leaves.  `Spends` excludes these; then
every seek is applied to the movie that was open when it was asked for.

Whose seek it is that is pending is kept in a `History` beside the state.
-/

namespace IvySync

namespace Control

/-- The last `flush` of a movie is over, and the next movie is not open yet. -/
def betweenMovies : Control → Bool
  | .start | .loop | .quitCheck | .stopCheck | .playWait | .open => true
  | .reopen e | .fclose e => e.ofMovie
  | _ => false

end Control

namespace Decoder

/-- The streams that have been opened, and what the pending seek was asked for. -/
structure History where
  /-- How many streams have been opened. -/
  streams : ℕ
  /-- The number of the stream that was open when the pending seek was asked for, if one was. -/
  asked : Option ℕ
  deriving DecidableEq

/-- The request writes `newfilepos`. -/
def writes (d : Decoder) : Request → Bool
  | .setpos _ => d.playlistFd.isSome && d.filesize ≠ 0
  | .setoffset _ => true
  | _ => false

/-- The history after an action. -/
def History.next (h : History) (d : Decoder) : Action → Event → History
  | .thread _, .opened _ => { h with streams := h.streams + 1 }
  | .thread _, _ => h
  | .request r, _ =>
    if d.writes r then { h with asked := if d.playlistFd.isSome then some h.streams else none }
    else h

/-- The next step of the thread applies the pending seek to the stream or to `filepos`. -/
def Applies (d : Decoder) : Prop :=
  (∃ k, d.pc = .seek k ∧ d.playlistFd.isSome ∧ 0 < d.newfilepos) ∨ ∃ k, d.pc = .seekSet k

/-- The request asks for a position that `flush` will apply. -/
def asks (d : Decoder) : Request → Bool
  | .setpos pos => d.playlistFd.isSome && 100 ≤ int64 (d.filesize * pos)
  | .setoffset pos => 0 < pos && 0 < d.filesize
  | _ => false

/-- No seek is asked for between two movies, and at the end of a movie a pending one is not skipped:
there is a device, and `flush` does not give up. -/
def Spends (d : Decoder) : Action → Prop
  | .thread a =>
    0 < d.newfilepos →
      (d.pc = .clear .movie → d.fd ≠ 0) ∧
      (d.pc = .poll (.clear .movie) → a.poll.ret < 1 → a.poll.pollout = false ∧ d.quit = false)
  | .request r => d.pc.betweenMovies = true → d.asks r = false

instance (d : Decoder) (x : Action) : Decidable (d.Spends x) :=
  match x with
  | .thread a => inferInstanceAs (Decidable (0 < d.newfilepos →
      (d.pc = .clear .movie → d.fd ≠ 0) ∧
      (d.pc = .poll (.clear .movie) → a.poll.ret < 1 → a.poll.pollout = false ∧ d.quit = false)))
  | .request r => inferInstanceAs (Decidable (d.pc.betweenMovies = true → d.asks r = false))

/-- From the measuring of a movie to its end its stream is open. -/
def MovieInStream (d : Decoder) : Prop :=
  d.pc.inMovie = true ∨ d.pc.ending = true → d.pc ≠ .length → d.playlistFd.isSome

/-- What holds of a decoder and its history as long as every seek is spent. -/
structure Spent (d : Decoder) (h : History) : Prop where
  stream : d.StreamInMovie
  movie : d.MovieInStream
  between : d.pc.betweenMovies = true → d.newfilepos ≤ 0
  own : d.playlistFd.isSome → 0 < d.newfilepos → h.asked = some h.streams
  applied : ∀ k, d.pc = .seekSet k → d.playlistFd.isSome ∧ h.asked = some h.streams

variable {d d' : Decoder} {h : History}

/-- One step of the thread opens a stream before a movie is measured, and closes it after its
end. -/
theorem MovieInStream.step {a : Answers} {e : Event} (h : d.MovieInStream) (hs : Step a d d' e) :
    d'.MovieInStream := by
  cases hs <;> (try cases ‹Caller›) <;> (try cases ‹Ending›) <;>
    simp_all [MovieInStream, Control.inMovie, Control.ending, Caller.inMovie, Caller.ending,
      Caller.resume, Ending.ofMovie]

/-- One step of the thread leaves nothing pending between two movies. -/
theorem Spent.step_between {a : Answers} {e : Event} (hd : Spent d h) (hc : d.Spends (.thread a))
    (hs : Step a d d' e) : d'.pc.betweenMovies = true → d'.newfilepos ≤ 0 := by
  obtain ⟨-, hmovie, hbetween, -, -⟩ := hd
  intro hpc'
  cases hs
  case clearNone en hpc hfd =>
    cases en with
    | movie => exact Int.not_lt.mp fun hpos => (hc hpos).1 hpc hfd
    | thread => simp [Control.betweenMovies, Ending.ofMovie] at hpc'
  case pollReturn k hpc hr hq =>
    cases k with
    | writing => simp [Caller.resume, Control.betweenMovies] at hpc'
    | clear en =>
      cases en with
      | movie =>
        refine Int.not_lt.mp fun hpos => ?_
        obtain ⟨hp, hnq⟩ := (hc hpos).2 hpc hr
        simp [hp, hnq] at hq
      | thread => simp [Caller.resume, Control.betweenMovies, Ending.ofMovie] at hpc'
  case noSeek k hpc hn =>
    cases k with
    | writing => simp [Caller.resume, Control.betweenMovies] at hpc'
    | clear en =>
      cases en with
      | movie =>
        have hopen : d.playlistFd.isSome := by
          apply hmovie <;> simp [hpc, Control.ending, Caller.ending, Ending.ofMovie]
        rcases hn with hn | hn
        · simp [hn] at hopen
        · exact hn
      | thread => simp [Caller.resume, Control.betweenMovies, Ending.ofMovie] at hpc'
  case seekSet => exact le_refl (0 : ℤ)
  all_goals simp_all [Control.betweenMovies, Ending.ofMovie]

/-- One step of the thread spends a seek on the movie that it was asked for. -/
theorem Spent.step {a : Answers} {e : Event} (hd : Spent d h) (hc : d.Spends (.thread a))
    (hs : Step a d d' e) : Spent d' (h.next d (.thread a) e) := by
  refine ⟨hd.stream.step hs, hd.movie.step hs, hd.step_between hc hs, ?_, ?_⟩
  · have hown := hd.own
    have hbetween := hd.between
    cases hs <;> simp_all [History.next, Control.betweenMovies]
  · have hown := hd.own
    cases hs <;> (try cases ‹Caller›) <;> simp_all [History.next, Caller.resume]

/-- A request that leaves a positive position pending asks for one, or does not write
`newfilepos`. -/
theorem asks_of_newfilepos_pos {r : Request} (hpos : 0 < (d.apply r).newfilepos) :
    d.writes r = true ∧ d.asks r = true ∨
      d.writes r = false ∧ (d.apply r).newfilepos = d.newfilepos := by
  cases r with
  | setpos pos =>
    simp only [apply, setpos, asks, writes] at hpos ⊢
    split_ifs at hpos ⊢ with h0
    · right
      rcases h0 with h0 | h0 <;> simp_all
    · left
      have h100 : 100 ≤ int64 (d.filesize * pos) := by
        by_contra hlt
        have hle : (int64 (d.filesize * pos)).tdiv 100 ≤ (99 : ℤ).tdiv 100 :=
          Int.tdiv_le_tdiv (by decide) (by omega)
        have h99 : (99 : ℤ).tdiv 100 = 0 := by decide
        dsimp only at hpos
        omega
      simp_all [Option.isSome_iff_ne_none]
  | setoffset pos =>
    left
    simp only [apply, setoffset, asks] at hpos ⊢
    split_ifs at hpos with hlt
    · simp [writes, hpos, hpos.trans hlt]
    · simp only [writes, Bool.and_eq_true, decide_eq_true_eq, true_and]
      omega
  | _ => exact Or.inr ⟨rfl, rfl⟩

/-- A request leaves every seek to be spent on the movie that it is asked for. -/
theorem Spent.apply (hd : Spent d h) {r : Request} (hc : d.Spends (.request r)) :
    Spent (d.apply r) (h.next d (.request r) .silent) := by
  obtain ⟨hpc, hfd, -⟩ := apply_frame d r
  obtain ⟨hstream, hmovie, hbetween, hown, happlied⟩ := hd
  -- a request of its own, or one that leaves the pending seek alone
  have hnext : d.playlistFd.isSome → d.writes r = true ∨ h.asked = some h.streams →
      (h.next d (.request r) .silent).asked = some (h.next d (.request r) .silent).streams := by
    intro hopen hr
    simp only [History.next]
    split_ifs with hw
    · rfl
    · exact hr.resolve_left hw
  refine ⟨?_, ?_, ?_, ?_, ?_⟩
  · simpa only [StreamInMovie, hpc, hfd] using hstream
  · simpa only [MovieInStream, hpc, hfd] using hmovie
  · intro hpc'
    rw [hpc] at hpc'
    refine Int.not_lt.mp fun hpos => ?_
    rcases asks_of_newfilepos_pos hpos with ⟨-, hasks⟩ | ⟨-, hsame⟩
    · simp [hc hpc'] at hasks
    · have := hbetween hpc'
      omega
  · intro hopen hpos
    rw [hfd] at hopen
    rcases asks_of_newfilepos_pos hpos with ⟨hwrites, -⟩ | ⟨-, hsame⟩
    · exact hnext hopen (Or.inl hwrites)
    · exact hnext hopen (Or.inr (hown hopen (hsame ▸ hpos)))
  · intro k hk
    obtain ⟨hopen, hasked⟩ := happlied k (hpc ▸ hk)
    exact ⟨hfd ▸ hopen, hnext hopen (Or.inr hasked)⟩

/-- A decoder that has just been launched has no seek pending. -/
theorem Started.spent {bufsize : ℤ} {d : Decoder} (h₀ : Started bufsize d) :
    Spent d ⟨0, none⟩ := by
  obtain ⟨fd, dummy, playmode, files, buffo, rfl⟩ := h₀.exists_eq
  refine ⟨?_, ?_, ?_, ?_, ?_⟩
  · simp [StreamInMovie, new]
  · simp [MovieInStream, Control.inMovie, Control.ending]
  · exact fun _ => le_refl (0 : ℤ)
  · simp [new]
  · simp

/-- In every run in which no seek is asked for between two movies and none is skipped at the end of
a movie, each seek that is applied, to the stream or to `filepos`, was asked for while the stream
that is open now was open. -/
theorem applies_to_own_movie {bufsize : ℤ} {d₀ : Decoder} {tr : List (Action × Event)}
    (h₀ : Started bufsize d₀) (hrun : machine.RunOn Spends d₀ tr d) :
    ∃ h : History,
      (machine.track History.next).RunOn (fun s x => s.1.Spends x) (d₀, ⟨0, none⟩) tr (d, h) ∧
        (d.Applies → d.playlistFd.isSome ∧ h.asked = some h.streams) := by
  obtain ⟨h, htrack⟩ := hrun.track History.next ⟨0, none⟩
  refine ⟨h, htrack, ?_⟩
  have hspent : Spent d h := by
    refine htrack.invariant (I := fun s => Spent s.1 s.2) ?_ h₀.spent
    rintro ⟨s, g⟩ x ⟨t, g'⟩ e hI hC hn
    obtain ⟨hn, rfl⟩ := Machine.track_next.mp hn
    rcases machine_cases hn with ⟨a, rfl, -, hs⟩ | ⟨r, rfl, rfl, rfl⟩
    · exact hI.step hC hs
    · exact hI.apply hC
  rintro (⟨k, -, hopen, hpos⟩ | ⟨k, hk⟩)
  · exact ⟨hopen, hspent.own hopen hpos⟩
  · exact hspent.applied k hk

/-- A seek that is asked for while its movie plays. -/
theorem applies_to_own_movie_first : ∃ (d : Decoder) (h : History),
    d.Applies ∧ d.playlistFd.isSome ∧ h.asked = some h.streams := by
  have hexec : machine.Reaches Spends (launched [[97]])
      (opening (List.replicate 2048 0) ++ List.replicate 5 (.thread {}) ++
        [.request (.setoffset 1000)] ++ List.replicate 2 (.thread { write := .accepted 1024 }))
      fun _ d => d.pc = .seek .writing ∧ d.playlistFd.isSome ∧ 0 < d.newfilepos := by
    decide +kernel
  obtain ⟨tr, d, hrun, hpc, hopen, hpos⟩ := hexec.exists_runOn
  obtain ⟨h, -, hown⟩ := applies_to_own_movie (started_launched _) hrun
  have happlies : d.Applies := Or.inl ⟨_, hpc, hopen, hpos⟩
  exact ⟨d, h, happlies, hown happlies⟩

/-- An offset that is asked for when the first movie has been closed is still within the size of
that movie, and is applied to the second one. -/
theorem not_applies_to_own_movie :
    ¬ ∀ (bufsize : ℤ) (d₀ d : Decoder) (h : History) (tr : List (Action × Event)),
      Started bufsize d₀ → (machine.track History.next).Run (d₀, ⟨0, none⟩) tr (d, h) →
      d.Applies → h.asked = some h.streams := by
  have hexec : (machine.track History.next).Reaches (fun _ _ => True) (launched [[97]], ⟨0, none⟩)
      (opening [7] ++ List.replicate 9 (.thread {}) ++ [.request (.setoffset 1)] ++
        List.replicate 3 (.thread {}) ++ [.request .play] ++ [.thread {}] ++
        [.thread { fopen64 := .stream [8, 9] }] ++ List.replicate 6 (.thread {}))
      fun _ s => s.1.pc = .seek (.clear .movie) ∧ s.1.playlistFd.isSome ∧ 0 < s.1.newfilepos ∧
        s.2 = ⟨2, none⟩ := by
    decide +kernel
  obtain ⟨tr, ⟨d, h⟩, hrun, hpc, hopen, hpos, hh⟩ := hexec.exists_runOn
  obtain rfl : h = ⟨2, none⟩ := hh
  intro hall
  have hown := hall 1 _ d _ tr (started_launched _) hrun (Or.inl ⟨_, hpc, hopen, hpos⟩)
  simp at hown

end Decoder

end IvySync

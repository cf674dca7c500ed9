import IvySync.Decoder.Step

/-!
# Stopping a movie

`Stop` and `Open` only set the flag `stopped`, which the thread looks at when it comes to the head
of the reading loop.  The stream is read no further as long as the flag survives until then
(`StopKept`): `Play` clears it, and the pause loop behind the test does not look at it.
-/

namespace IvySync

namespace Ending

/-- The end of a movie. -/
def ofMovie : Ending → Bool
  | .movie => true
  | .thread => false

end Ending

namespace Caller

/-- `flush` was called in the writing loop. -/
def inMovie : Caller → Bool
  | .writing => true
  | .clear _ => false

/-- `flush` was called at the end of a movie. -/
def ending : Caller → Bool
  | .writing => false
  | .clear e => e.ofMovie

end Caller

namespace Control

/-- The thread is in the reading loop, or on its way to it with a new stream. -/
def inMovie : Control → Bool
  | .length | .readTop | .pauseWait | .read | .syncWait | .writing | .readNext => true
  | .poll k | .seek k | .seekSet k => k.inMovie
  | _ => false

/-- The thread has left the reading loop and has the stream still to close. -/
def ending : Control → Bool
  | .poll k | .seek k | .seekSet k => k.ending
  | .clear e | .reopen e | .fclose e => e.ofMovie
  | _ => false

/-- The thread is at a test of a flag that other threads set, or does not run. -/
def check : Control → Bool
  | .open | .length | .read | .writing | .seekSet _ | .clear _ | .reopen _ | .fclose _ => false
  | _ => true

end Control

namespace Request

/-- `Stop`, or `Open` on a file that can be read. -/
def stops : Request → Bool
  | .stop => true
  | .open _ => true
  | _ => false

end Request

namespace Decoder

/-- Syncstart is raised, and requests come between two segments of the thread only. -/
def BetweenChecks (d : Decoder) : Action → Prop
  | .thread a => a.syncstart = true
  | .request _ => d.pc.check = true

/-- A stop that has been requested is not lost: the thread does not leave the pause loop with
`stopped` set, and no `Play` clears it while the thread has not left the reading loop. -/
def StopKept (d : Decoder) : Action → Prop
  | .thread _ => d.pc = .pauseWait → d.stopped = true → d.playing = false ∧ d.quit = false
  | .request r => r = .play → d.stopped = true → d.pc.inMovie = false

instance (d : Decoder) (x : Action) : Decidable (d.BetweenChecks x) :=
  match x with
  | .thread a => inferInstanceAs (Decidable (a.syncstart = true))
  | .request _ => inferInstanceAs (Decidable (d.pc.check = true))

instance (d : Decoder) (x : Action) : Decidable (d.StopKept x) :=
  match x with
  | .thread _ => inferInstanceAs (Decidable
      (d.pc = .pauseWait → d.stopped = true → d.playing = false ∧ d.quit = false))
  | .request r => inferInstanceAs (Decidable (r = .play → d.stopped = true → d.pc.inMovie = false))

/-- No chunk is read during the trace before the stream has been closed. -/
def NoFurtherChunk (tr : List (Action × Event)) : Prop :=
  ∀ tr₁ x bytes tr₂, tr = tr₁ ++ (x, .chunk bytes) :: tr₂ → Machine.Seen (· = .closed) tr₁

/-! ### Where a stream is open -/

/-- A stream is open in the reading loop and until it has been closed only. -/
def StreamInMovie (d : Decoder) : Prop :=
  d.playlistFd.isSome → d.pc.inMovie = true ∨ d.pc.ending = true

/-- One step of the thread opens a stream before the reading loop and closes it after. -/
theorem StreamInMovie.step {a : Answers} {d d' : Decoder} {e : Event} (h : d.StreamInMovie)
    (hs : Step a d d' e) : d'.StreamInMovie := by
  cases hs <;> (try cases ‹Caller›) <;> (try cases ‹Ending›) <;>
    simp_all [StreamInMovie, Control.inMovie, Control.ending, Caller.inMovie, Caller.ending,
      Caller.resume, Ending.ofMovie]

/-- A stream is open in the reading loop and until it has been closed only, in every state. -/
theorem Started.streamInMovie {bufsize : ℤ} {d₀ d : Decoder} {tr : List (Action × Event)}
    (h₀ : Started bufsize d₀) (h : machine.Run d₀ tr d) : d.StreamInMovie := by
  have hstart : d₀.StreamInMovie := by
    obtain ⟨fd, dummy, playmode, files, buffo, rfl⟩ := h₀.exists_eq
    simp [StreamInMovie, new]
  have hstep : ∀ s x t e, s.StreamInMovie → True → machine.next s x = some (t, e) →
      t.StreamInMovie := by
    intro s x t e hI _ hn
    rcases machine_cases hn with ⟨a, rfl, -, hs⟩ | ⟨r, rfl, rfl, -⟩
    · exact hI.step hs
    · obtain ⟨hpc, hfd, -⟩ := apply_frame s r
      unfold StreamInMovie
      rw [hpc, hfd]
      exact hI
  exact h.invariant hstep hstart

/-! ### What a stop cuts off -/

/-- The stream will be closed without another read: the thread has left the reading loop, or is to
see `stopped` before it reads again. -/
structure Cut (d : Decoder) : Prop where
  stream : d.playlistFd.isSome
  control : d.pc.ending = true ∨ d.pc.inMovie = true ∧ d.pc ≠ .read ∧ d.stopped = true

theorem cut_iff (d : Decoder) : d.Cut ↔ d.playlistFd.isSome ∧
    (d.pc.ending = true ∨ d.pc.inMovie = true ∧ d.pc ≠ .read ∧ d.stopped = true) :=
  ⟨fun ⟨h₁, h₂⟩ => ⟨h₁, h₂⟩, fun ⟨h₁, h₂⟩ => ⟨h₁, h₂⟩⟩

/-- One step of the thread reads nothing of a stream that is cut off. -/
theorem Cut.step {a : Answers} {d d' : Decoder} {e : Event} (h : d.Cut)
    (hk : d.StopKept (.thread a)) (hs : Step a d d' e) :
    (∀ bytes, e ≠ .chunk bytes) ∧ (e = .closed ∨ d'.Cut) := by
  obtain ⟨hstream, hcontrol⟩ := h
  cases hs <;> (try cases ‹Caller›) <;> (try cases ‹Ending›) <;>
    simp_all [cut_iff, StopKept, Control.inMovie, Control.ending, Caller.inMovie, Caller.ending,
      Caller.resume, Ending.ofMovie]

/-- No request but `Play` clears the flag `stopped`. -/
theorem apply_stopped {d : Decoder} {r : Request} (h : d.stopped = true) (hr : r ≠ .play) :
    (d.apply r).stopped = true := by
  cases r
  case play => exact absurd rfl hr
  case stop | «open» => rfl
  case setpos =>
    simp only [apply, setpos]
    split_ifs <;> exact h
  all_goals exact h

/-- A request leaves a stream cut off. -/
theorem Cut.apply {d : Decoder} {r : Request} (h : d.Cut) (hk : d.StopKept (.request r)) :
    (d.apply r).Cut := by
  obtain ⟨hpc, hfd, -⟩ := apply_frame d r
  obtain ⟨hstream, hcontrol⟩ := h
  refine ⟨by rw [hfd]; exact hstream, ?_⟩
  rw [hpc]
  rcases hcontrol with hend | ⟨hin, hread, hstopped⟩
  · exact Or.inl hend
  · have hnoplay : r ≠ .play := by
      intro hplay
      rw [hk hplay hstopped] at hin
      cases hin
    exact Or.inr ⟨hin, hread, apply_stopped hstopped hnoplay⟩

/-- A stop that finds a stream open cuts it off. -/
theorem Cut.of_stops {d : Decoder} {r : Request} (h : d.StreamInMovie) (hr : r.stops = true)
    (hopen : d.playlistFd.isSome) (hcheck : d.pc.check = true) : (d.apply r).Cut := by
  obtain ⟨hpc, hfd, -⟩ := apply_frame d r
  refine ⟨by rw [hfd]; exact hopen, ?_⟩
  rw [hpc]
  rcases h hopen with hin | hend
  · have hread : d.pc ≠ .read := by
      intro hread
      simp [hread, Control.check] at hcheck
    refine Or.inr ⟨hin, hread, ?_⟩
    cases r <;> first | rfl | cases hr
  · exact Or.inl hend

/-- In every run in which a stop is kept, the stream that it finds open is read no further. -/
theorem stop_ends_stream {bufsize : ℤ} {d₀ d₁ d₂ d₃ : Decoder} {tr₀ tr : List (Action × Event)}
    {r : Request} {e : Event} (h₀ : Started bufsize d₀) (h₁ : machine.Run d₀ tr₀ d₁)
    (hr : r.stops = true) (hopen : d₁.playlistFd.isSome)
    (hcheck : d₁.BetweenChecks (.request r)) (hn : machine.next d₁ (.request r) = some (d₂, e))
    (h : machine.RunOn (fun d x => d.BetweenChecks x ∧ d.StopKept x) d₂ tr d₃) :
    NoFurtherChunk tr := by
  have h₂ : d₂.Cut := by
    rcases machine_cases hn with ⟨a, ha, -⟩ | ⟨r', hr', rfl, -⟩
    · cases ha
    · cases hr'
      exact Cut.of_stops (h₀.streamInMovie h₁) hr hopen hcheck
  rintro tr₁ x bytes tr₂ rfl
  obtain ⟨d, d', hrun, hC, hstep, -⟩ := h.exists_of_mem_split
  have hcut : Machine.Seen (· = .closed) tr₁ ∨ d.Cut := by
    refine hrun.invariant_trace (I := fun tr d => Machine.Seen (· = .closed) tr ∨ d.Cut) ?_
      (Or.inr h₂)
    intro tr s x t e hI hC hn
    rw [Machine.seen_snoc]
    rcases hI with hclosed | hcut
    · exact Or.inl (Or.inl hclosed)
    · rcases machine_cases hn with ⟨a, rfl, -, hs⟩ | ⟨r, rfl, rfl, rfl⟩
      · exact (hcut.step hC.2 hs).2.imp_left Or.inr
      · exact Or.inr (hcut.apply hC.2)
  rcases hcut with hclosed | hcut
  · exact hclosed
  · -- the step that read the chunk was taken from a state that reads none
    rcases machine_cases hstep with ⟨a, rfl, -, hs⟩ | ⟨r, -, -, he⟩
    · exact absurd rfl ((hcut.step hC.2 hs).1 bytes)
    · cases he

/-- A stop at the head of the reading loop ends the movie. -/
theorem stop_ends_movie :
    ∃ (d₂ d₃ : Decoder) (tr : List (Action × Event)), d₂.playlistFd.isSome ∧
      d₃.playlistFd = none ∧ machine.Run d₂ tr d₃ ∧ NoFurtherChunk tr := by
  have hexec : machine.Reaches (fun _ _ => True) (launched [[97]])
      (opening (List.replicate 1024 7) ++ [.thread {}]) fun _ d₁ =>
        d₁.playlistFd.isSome ∧ d₁.BetweenChecks (.request .stop) ∧
          ∃ q ∈ machine.next d₁ (.request .stop), q.1.playlistFd.isSome ∧
            machine.Reaches (fun d x => d.BetweenChecks x ∧ d.StopKept x) q.1
              (List.replicate 6 (.thread {})) fun _ d₃ => d₃.playlistFd = none := by
    decide +kernel
  obtain ⟨tr₀, d₁, h₁, hopen, hcheck, ⟨d₂, e⟩, hn, hopen₂, hrest⟩ := hexec.exists_runOn
  obtain ⟨tr, d₃, h, hclosed⟩ := hrest.exists_runOn
  exact ⟨d₂, d₃, tr, hopen₂, hclosed, h.run,
    stop_ends_stream (started_launched _) h₁ rfl hopen hcheck hn h⟩

/-- `Stop` followed by `Play` is lost: the thread goes on reading. -/
theorem not_stop_ends_stream :
    ¬ ∀ (bufsize : ℤ) (d₀ d₁ d₂ d₃ : Decoder) (tr₀ tr : List (Action × Event)) (r : Request)
        (e : Event), Started bufsize d₀ → machine.RunOn BetweenChecks d₀ tr₀ d₁ →
      r.stops = true → d₁.playlistFd.isSome → d₁.BetweenChecks (.request r) →
      machine.next d₁ (.request r) = some (d₂, e) → machine.RunOn BetweenChecks d₂ tr d₃ →
      NoFurtherChunk tr := by
  have hexec : machine.Reaches BetweenChecks (launched [[97]])
      (opening (List.replicate 1024 7) ++ [.thread {}]) fun _ d₁ =>
        d₁.playlistFd.isSome ∧ d₁.BetweenChecks (.request .stop) ∧
          ∃ q ∈ machine.next d₁ (.request .stop),
            machine.Reaches BetweenChecks q.1 (.request .play :: List.replicate 3 (.thread {}))
              fun tr _ => tr = [(.request .play, .silent), (.thread {}, .silent),
                (.thread {}, .silent), (.thread {}, .chunk (List.replicate 1024 7))] := by
    decide +kernel
  obtain ⟨tr₀, d₁, h₁, hopen, hcheck, ⟨d₂, e⟩, hn, hrest⟩ := hexec.exists_runOn
  obtain ⟨tr, d₃, h, rfl⟩ := hrest.exists_runOn
  intro hall
  obtain ⟨y, hy, hclosed⟩ := hall 1 _ d₁ d₂ d₃ tr₀ _ .stop e (started_launched _) h₁ rfl hopen
    hcheck hn h [(.request .play, .silent), (.thread {}, .silent), (.thread {}, .silent)] _ _ [] rfl
  simp only [List.mem_cons, List.not_mem_nil, or_false] at hy
  rcases hy with rfl | rfl | rfl <;> cases hclosed

end Decoder

end IvySync

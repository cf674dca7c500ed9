import IvySync.Decoder.Lookup
import IvySync.Decoder.Stop
import IvySync.Linklist.Refinement
import IvySync.Process.Launch

/-!
# The daemon and the playlist of a decoder

Remote commands come while the thread of a decoder is anywhere in its loop.  Two things hold
nevertheless: a stream is open only while the position is one of the playlist, so that `GetPos`
finds the entry that it looks up (`getpos_defined`), and what is opened after an `Open` is the file
named there, from its beginning (`opened_after_open`).

A step here is one step of a thread or one command.  A run in which each thread goes from one of its
waits to the next without being interrupted is a run of such steps.
-/

namespace IvySync

namespace Decoder

variable {a : Answers} {d d' : Decoder} {e : Event} {name : Name}

/-! ### The position of an open stream -/

/-- While a stream is open the position is one of the playlist. -/
def StreamFound (d : Decoder) : Prop :=
  d.playlistFd.isSome → 1 ≤ d.position ∧ d.position ≤ d.playlist.length

/-- The thread keeps the position while a stream is open, and opens one only for an entry that it
has found. -/
theorem StreamFound.step (h : d.StreamFound) (hm : d.StreamInMovie) (hs : Step a d d' e) :
    d'.StreamFound := by
  cases hs
  case update hpc hq position stopped hp hst =>
    intro hopen
    have hin := hm hopen
    simp [hpc, Control.inMovie, Control.ending] at hin
  case opened hpc name movie hpick hr =>
    intro _
    obtain ⟨before, after, hlist, hpos⟩ := Playlist.exists_split_of_pick hpick
    simp only [hlist, hpos, List.length_append, List.length_cons]
    omega
  case measured hpc f hf | seek k hpc f hf hn => exact fun _ => h (by simp [hf])
  case endOfFile hpc f f' chunk hf hr he | chunk hpc f f' chunk hf hr he hc =>
    exact fun _ => h (by simp [hf])
  case notOpened | nullStream | fcloseMovie | fcloseThread => exact fun hopen => by cases hopen
  all_goals exact h

/-- A thread that has come past its first test is marked as running. -/
def Begun (d : Decoder) : Prop :=
  d.running = true ∨ d.pc = .idle ∨ d.pc = .start ∨ d.pc = .done

/-- A thread that runs is marked so. -/
theorem Begun.step (h : d.Begun) (hs : Step a d d' e) : d'.Begun := by
  cases hs <;> (try cases ‹Caller›) <;> (try cases ‹Ending›) <;> simp_all [Begun, Caller.resume]

/-- A thread with an open stream is alive and past its first test. -/
theorem alive_of_inMovie (h : d.pc.inMovie = true ∨ d.pc.ending = true) :
    d.alive = true ∧ d.pc ≠ .idle ∧ d.pc ≠ .start ∧ d.pc ≠ .done := by
  cases hpc : d.pc <;> simp_all [Control.inMovie, Control.ending, alive]

/-- `close` goes on only when no stream is open. -/
theorem stream_closed_of_joined (hm : d.StreamInMovie) (hb : d.Begun)
    (hr : d.running = true → d.alive = false) : d.playlistFd = none := by
  by_contra hopen
  have hin := hm (Option.isSome_iff_ne_none.mpr hopen)
  obtain ⟨halive, hidle, hstart, hdone⟩ := alive_of_inMovie hin
  rcases hb with hrunning | hpc | hpc | hpc
  · rw [hr hrunning] at halive
    cases halive
  · exact hidle hpc
  · exact hstart hpc
  · exact hdone hpc

/-- With the position in the playlist while a stream is open, `getpos` uses no NULL entry, and it
divides by the size of the movie only when that is not zero. -/
theorem getpos_of_streamFound (h : d.StreamFound) :
    d.getpos = some 0 ∧ (d.playlistFd = none ∨ d.filesize = 0) ∨
      d.filesize ≠ 0 ∧
        d.getpos = some (int32 ((int64 (d.filepos * 100)).tdiv d.filesize)) := by
  unfold getpos
  split_ifs with hnone
  · exact Or.inl ⟨rfl, by simpa using hnone⟩
  · push Not at hnone
    have hopen : d.playlistFd.isSome := by simpa [Option.isSome_iff_ne_none] using hnone.1
    obtain ⟨h1, h2⟩ := h hopen
    obtain ⟨movie, hmovie⟩ := (found_iff.mpr ⟨h1, h2⟩).2.2
    exact Or.inr ⟨hnone.2, by rw [hmovie, Option.map_some]⟩

/-! ### A playlist of one entry -/

/-- The playlist has this entry alone, and it is the current one, or the playlist is empty. -/
def Only (name : Name) (d : Decoder) : Prop :=
  d.playlist = [name] ∧ d.position = 1 ∨ d.playlist = []

/-- In a playlist of one entry `update` stays there, whatever the playmode. -/
theorem update_position_one (hlist : d.playlist = [name]) (hpos : d.position = 1) :
    d.update.position = 1 := by
  have hnonneg : 0 ≤ d.position := by omega
  cases hm : d.playmode.stays with
  | true => rw [update_position_stays hnonneg hm, hpos]
  | false =>
    rw [update_position_next hnonneg hm, hlist, hpos]
    simp

/-- The thread stays with the only entry, and opens no other. -/
theorem Only.step (h : d.Only name) (hs : Step a d d' e) :
    d'.Only name ∧ ∀ x, e = .opened x →
      x = name ∧ d'.pc = .length ∧ ∃ movie, d'.playlistFd = some ⟨movie, 0, false⟩ := by
  cases hs
  case update hpc hq position stopped hp hst =>
    refine ⟨?_, by simp⟩
    rcases h with ⟨hlist, hpos⟩ | hlist
    · exact Or.inl ⟨hlist, by rw [← hp, update_position_one hlist hpos]⟩
    · exact Or.inr hlist
  case opened hpc x movie hpick hr =>
    refine ⟨h, ?_⟩
    intro y hy
    obtain rfl := Event.opened.inj hy
    refine ⟨?_, rfl, movie, rfl⟩
    rcases h with ⟨hlist, hpos⟩ | hlist
    · have hone : Playlist.pick [name] 1 = some name := Playlist.pick_append_cons [] [] name
      rw [hlist, hpos, hone] at hpick
      exact (Option.some.inj hpick).symm
    · simp [hlist, Playlist.pick] at hpick
  all_goals exact ⟨h, by simp⟩

/-- A stream just opened is measured by the next step of the thread. -/
theorem measured_of_opened {movie : List UInt8} (hpc : d.pc = .length)
    (hf : d.playlistFd = some ⟨movie, 0, false⟩) (hs : Step a d d' e) :
    d'.filepos = 0 ∧ d'.playlistFd = some ⟨movie, 0, false⟩ := by
  cases hs
  case measured _ f hf' =>
    rw [hf] at hf'
    obtain rfl := Option.some.inj hf'
    exact ⟨rfl, rfl⟩
  case measureFault _ hf' => simp [hf] at hf'
  all_goals simp_all

end Decoder

namespace Process

variable {n : ℕ} {cfg : Config n} {s s' : Process n}

/-! ### Every open stream has its entry -/

/-- The invariant of a decoder with regard to its stream. -/
structure Streaming (s : Process n) (i : Fin n) : Prop where
  unlaunched : Unlaunched i s.main → (s.decoders i).pc = .idle
  inMovie : (s.decoders i).StreamInMovie
  begun : (s.decoders i).Begun
  found : (s.decoders i).StreamFound

/-- A command leaves the position of an open stream in the playlist. -/
theorem streamFound_command {c : Command} {readable : Bool} {decnum : ℤ} {r : Request}
    {d : Decoder} (h : d.StreamFound) (hc : c.request readable = some (decnum, r)) :
    (d.apply r).StreamFound := by
  cases c with
  | setPos _ pos =>
    obtain ⟨-, rfl⟩ := Prod.mk.inj (Option.some.inj hc)
    simp only [Decoder.apply, Decoder.setpos]
    split_ifs <;> exact h
  | «open» _ path =>
    simp only [Command.request] at hc
    split_ifs at hc
    obtain ⟨-, rfl⟩ := Prod.mk.inj (Option.some.inj hc)
    exact fun _ => ⟨le_refl 1, le_refl 1⟩
  | getPos | getOffset | quit => cases hc
  | play | stop | pause | setOffset =>
    obtain ⟨-, rfl⟩ := Prod.mk.inj (Option.some.inj hc)
    exact h

/-- What `main` does to a decoder keeps its invariant. -/
theorem Treated.streaming {m : Main n} {i : Fin n} {d d' : Decoder} (h : Treated cfg m i d d')
    (hidle : Unlaunched i m → d.pc = .idle) (hm : d.StreamInMovie) (hb : d.Begun)
    (hf : d.StreamFound) : d'.StreamInMovie ∧ d'.Begun ∧ d'.StreamFound := by
  cases h with
  | untouched => exact ⟨hm, hb, hf⟩
  | setup calloc hsetup =>
    obtain ⟨_, _, _, heq, -⟩ := Decoder.exists_setup_eq calloc cfg.videobuf d
    rw [heq]
    exact ⟨hm, hb, hf⟩
  | launch created hlaunch =>
    have hpc : d.pc = .idle := hidle (by rw [hlaunch]; exact le_refl i)
    have hclosed : d.playlistFd = none := by
      by_contra hopen
      have hin := hm (Option.isSome_iff_ne_none.mpr hopen)
      simp [hpc, Control.inMovie, Control.ending] at hin
    refine ⟨?_, ?_, ?_⟩
    · simp [Decoder.StreamInMovie, Decoder.launch, hclosed]
    · cases created <;> simp [Decoder.Begun, Decoder.launch, hpc]
    · simp [Decoder.StreamFound, Decoder.launch, hclosed]
  | load k line _ =>
    refine ⟨hm, hb, ?_⟩
    intro hopen
    obtain ⟨h1, h2⟩ := hf hopen
    simp only [Decoder.append, Playlist.append, List.length_append, List.length_singleton]
    omega
  | play _ => exact ⟨hm, hb, hf⟩
  | command c readable decnum r _ hc =>
    obtain ⟨_, _, _, _, _, _, _, heq, -⟩ := Decoder.exists_apply_eq d r
    refine ⟨?_, ?_, streamFound_command hf hc⟩
    · rw [heq]
      exact hm
    · rw [heq]
      exact hb
  | quitting _ => exact ⟨hm, hb, hf⟩
  | close _ hr =>
    have hclosed := Decoder.stream_closed_of_joined hm hb hr
    refine ⟨hm, hb, ?_⟩
    intro hopen
    obtain ⟨-, hstream, -⟩ := Decoder.apply_frame d .close
    rw [hstream, hclosed] at hopen
    cases hopen

/-- Every step keeps the invariant. -/
theorem Streaming.step {i : Fin n} {x : Action n} {e : Event n} (h : Streaming s i)
    (hn : (machine cfg).next s x = some (s', e)) : Streaming s' i := by
  have hidle := unlaunched_step h.unlaunched hn
  obtain ⟨unlaunched, inMovie, begun, found⟩ := h
  rcases machine_cases hn with ⟨a, rfl, hs⟩ | ⟨j, a, d', e', rfl, hs, rfl, rfl⟩ |
    ⟨r, rfl, hu, rfl, rfl⟩ | ⟨r, rfl, hu, rfl, rfl⟩
  · obtain ⟨h1, h2, h3⟩ := (hs.treated i).streaming unlaunched inMovie begun found
    exact ⟨hidle, h1, h2, h3⟩
  · have hkept : ((s.set j d').decoders i).StreamInMovie ∧
        ((s.set j d').decoders i).Begun ∧ ((s.set j d').decoders i).StreamFound :=
      set_rule (P := fun d => d.StreamInMovie ∧ d.Begun ∧ d.StreamFound)
        (fun h => ⟨h.1.step hs, h.2.1.step hs, h.2.2.step h.1 hs⟩) ⟨inMovie, begun, found⟩
    exact ⟨hidle, hkept.1, hkept.2.1, hkept.2.2⟩
  · exact ⟨hidle, inMovie, begun, found⟩
  · exact ⟨hidle, inMovie, begun, found⟩

/-- In every reachable state, whatever the commands, their order and the playmodes: while a stream
of a decoder is open its position is one of the playlist, so that `GetPos` finds the entry that it
looks up and divides by no size that is zero.  The flag `syncstart` may have any value at the
start. -/
theorem getpos_defined (syncstart : Bool) {tr : List (Action n × Event n)}
    (h : (machine cfg).Run { init cfg with syncstart := syncstart } tr s) (i : Fin n) :
    ((s.decoders i).playlistFd.isSome →
      1 ≤ (s.decoders i).position ∧ (s.decoders i).position ≤ (s.decoders i).playlist.length) ∧
    ((s.decoders i).getpos = some 0 ∧
        ((s.decoders i).playlistFd = none ∨ (s.decoders i).filesize = 0) ∨
      (s.decoders i).filesize ≠ 0 ∧ (s.decoders i).getpos =
        some (int32 ((int64 ((s.decoders i).filepos * 100)).tdiv (s.decoders i).filesize))) := by
  have hinit : Streaming { init cfg with syncstart := syncstart } i := by
    refine ⟨fun _ => rfl, ?_, Or.inr (Or.inl rfl), ?_⟩
    · simp [Decoder.StreamInMovie, init, Decoder.new]
    · simp [Decoder.StreamFound, init, Decoder.new]
  have hs : Streaming s i := by
    refine h.invariant (I := (Streaming · i)) ?_ hinit
    intro s x t e hI _ hn
    exact hI.step hn
  exact ⟨hs.found, Decoder.getpos_of_streamFound hs.found⟩

/-- A daemon with one decoder that has opened and measured a movie of two bytes. -/
theorem getpos_defined_solo :
    ∃ tr s, (machine (solo .xmlrpc true)).Run (init (solo .xmlrpc true)) tr s ∧
      (s.decoders 0).playlistFd.isSome ∧ 1 ≤ (s.decoders 0).position ∧
      (s.decoders 0).position ≤ (s.decoders 0).playlist.length := by
  have hexec : (machine (solo .xmlrpc true)).Reaches (fun _ _ => True)
      { init (solo .xmlrpc true) with syncstart := false }
      (List.replicate 6 (.main {}) ++ List.replicate 4 (.thread 0 {}) ++
        [.main { command := some (.open 1 [98]) }, .main { command := some (.play 1) }] ++
        List.replicate 3 (.thread 0 { fopen64 := .stream [7, 7] }))
      fun _ s => (s.decoders 0).playlistFd.isSome := by decide +kernel
  obtain ⟨tr, s, h, hopen⟩ := hexec.exists_runOn
  exact ⟨tr, s, h, hopen, (getpos_defined false h 0).1 hopen⟩

/-! ### What is opened after an Open -/

/-- `main` is in the loop of the daemon, or has left it. -/
def Served (m : Main n) : Prop := Serving m ∨ m = .exited

/-- `main` does not leave the loop of the daemon for another one. -/
theorem MainStep.served {a : MainAnswers} {e : Event n} (h : MainStep cfg a s s' e)
    (hm : Serving s.main) : Served s'.main := by
  cases h
  case serveQuit => exact Or.inr rfl
  case serveNothing | request => exact Or.inl hm
  case quit hserve hq => exact first_rule (fun i => Or.inl (Or.inr ⟨i, Or.inl rfl⟩)) (Or.inr rfl)
  case quitting i hq => exact Or.inl (Or.inr ⟨i, Or.inr rfl⟩)
  case join i hj hr hi => exact Or.inl (Or.inr ⟨_, Or.inl rfl⟩)
  case joinLast => exact Or.inl (Or.inl rfl)
  all_goals simp_all [Serving]

/-- A command other than `Open` leaves a playlist of one entry as it is. -/
theorem only_command {c : Command} {readable : Bool} {decnum : ℤ} {r : Request} {d : Decoder}
    {name : Name} (h : d.Only name) (hc : c.request readable = some (decnum, r))
    (hno : ∀ path, r ≠ .open path) : (d.apply r).Only name := by
  cases c with
  | setPos _ pos =>
    obtain ⟨-, rfl⟩ := Prod.mk.inj (Option.some.inj hc)
    simp only [Decoder.apply, Decoder.setpos]
    split_ifs <;> exact h
  | «open» _ path =>
    simp only [Command.request] at hc
    split_ifs at hc
    obtain ⟨-, rfl⟩ := Prod.mk.inj (Option.some.inj hc)
    exact absurd rfl (hno path)
  | getPos | getOffset | quit => cases hc
  | play | stop | pause | setOffset =>
    obtain ⟨-, rfl⟩ := Prod.mk.inj (Option.some.inj hc)
    exact h

/-- In the loop of the daemon `main` leaves a playlist of one entry as it is or empties it, unless
it executes an `Open`. -/
theorem MainStep.only {a : MainAnswers} {e : Event n} {i : Fin n} {name : Name}
    (h : MainStep cfg a s s' e) (hm : Serving s.main) (ho : (s.decoders i).Only name)
    (hno : ∀ path, e ≠ .request i (.open path)) : (s'.decoders i).Only name := by
  have hset : ∀ (j : Fin n) (d : Decoder), (i = j → d.Only name) →
      ((s.set j d).decoders i).Only name := by
    intro j d hd
    by_cases hij : i = j
    · rw [← hij, set_decoders_self]
      exact hd hij
    · rwa [set_decoders_of_ne s d hij]
  cases h
  case serveQuit | serveNothing | quit => exact ho
  case request hserve hq j c decnum r hc hj =>
    refine hset j _ ?_
    rintro rfl
    exact only_command ho hc fun path hr => hno path (by rw [hr])
  case quitting j hj =>
    refine hset j _ ?_
    rintro rfl
    exact ho
  case join j hj hr hlt => exact hset j _ fun _ => Or.inr rfl
  case joinLast j hj hr hlt => exact hset j _ fun _ => Or.inr rfl
  all_goals simp_all [Serving]

/-- In the loop of the daemon `main` leaves the stream of a decoder and the control point of its
thread alone. -/
theorem MainStep.stream {a : MainAnswers} {e : Event n} (h : MainStep cfg a s s' e)
    (hm : Serving s.main) (i : Fin n) :
    (s'.decoders i).pc = (s.decoders i).pc ∧
      (s'.decoders i).playlistFd = (s.decoders i).playlistFd := by
  have ht := h.treated i
  generalize s'.decoders i = d' at ht
  cases ht with
  | untouched => exact ⟨rfl, rfl⟩
  | command c readable decnum r _ hc =>
    obtain ⟨hpc, hfd, -⟩ := Decoder.apply_frame (s.decoders i) r
    exact ⟨hpc, hfd⟩
  | quitting _ => exact ⟨rfl, rfl⟩
  | close _ _ => exact ⟨rfl, rfl⟩
  | setup _ hm' | launch _ hm' | load _ _ hm' | play hm' => simp [Serving, hm'] at hm

/-- A step in the loop of the daemon is taken with `main` in it, and leads to it. -/
theorem served_step {x : Action n} {e : Event n} (h : Served s.main)
    (hn : (machine cfg).next s x = some (s', e)) : Serving s.main ∧ Served s'.main := by
  have hserving : Serving s.main := by
    refine h.resolve_right ?_
    intro hexit
    simp [machine, hexit] at hn
  refine ⟨hserving, ?_⟩
  rcases machine_cases hn with ⟨a, rfl, hs⟩ | ⟨j, a, d', e', rfl, hs, rfl, rfl⟩ |
    ⟨r, rfl, hu, rfl, rfl⟩ | ⟨r, rfl, hu, rfl, rfl⟩
  · exact hs.served hserving
  all_goals exact h

/-- In the loop of the daemon only the thread of a decoder itself moves or changes its stream. -/
theorem stream_step {i : Fin n} {x : Action n} {e : Event n} (h : Served s.main)
    (hn : (machine cfg).next s x = some (s', e)) (he : ∀ e', e ≠ .thread i e') :
    (s'.decoders i).pc = (s.decoders i).pc ∧
      (s'.decoders i).playlistFd = (s.decoders i).playlistFd := by
  obtain ⟨hserving, -⟩ := served_step h hn
  rcases machine_cases hn with ⟨a, rfl, hs⟩ | ⟨j, a, d', e', rfl, hs, rfl, rfl⟩ |
    ⟨r, rfl, hu, rfl, rfl⟩ | ⟨r, rfl, hu, rfl, rfl⟩
  · exact hs.stream hserving i
  · have hij : i ≠ j := by
      rintro rfl
      exact he e' rfl
    rw [set_decoders_of_ne s d' hij]
    exact ⟨rfl, rfl⟩
  · exact ⟨rfl, rfl⟩
  · exact ⟨rfl, rfl⟩

/-- The invariant of a decoder behind an `Open`. -/
structure Opened (name : Name) (i : Fin n) (s : Process n) : Prop where
  served : Served s.main
  only : (s.decoders i).Only name

/-- A step that is no `Open` of decoder `i` keeps the invariant, and opens the file only, at its
beginning. -/
theorem Opened.step {name : Name} {i : Fin n} {x : Action n} {e : Event n}
    (h : Opened name i s) (hn : (machine cfg).next s x = some (s', e))
    (hno : ∀ path, e ≠ .request i (.open path)) :
    Opened name i s' ∧ ∀ y, e = .thread i (.opened y) → y = name ∧
      (s'.decoders i).pc = .length ∧
      ∃ movie, (s'.decoders i).playlistFd = some ⟨movie, 0, false⟩ := by
  obtain ⟨hserving, hserved⟩ := served_step h.served hn
  rcases machine_cases hn with ⟨a, rfl, hs⟩ | ⟨j, a, d', e', rfl, hs, rfl, rfl⟩ |
    ⟨r, rfl, hu, rfl, rfl⟩ | ⟨r, rfl, hu, rfl, rfl⟩
  · refine ⟨⟨hserved, hs.only hserving h.only hno⟩, ?_⟩
    rintro y rfl
    cases hs
  · by_cases hij : i = j
    · subst hij
      obtain ⟨honly, hopened⟩ := h.only.step hs
      refine ⟨⟨hserved, by rwa [set_decoders_self]⟩, ?_⟩
      intro y hy
      rw [set_decoders_self]
      exact hopened y (by simpa using hy)
    · refine ⟨⟨hserved, by rw [set_decoders_of_ne s d' hij]; exact h.only⟩, ?_⟩
      intro y hy
      exact absurd (by simpa using hy : j = i ∧ _).1 (Ne.symm hij)
  · exact ⟨⟨hserved, h.only⟩, by simp⟩
  · exact ⟨⟨hserved, h.only⟩, by simp⟩

/-- An `Open` leaves a playlist of one entry. -/
theorem opened_of_open {x : Action n} {i : Fin n} {name : Name}
    (hn : (machine cfg).next s x = some (s', .request i (.open name))) : Opened name i s' := by
  rcases machine_cases hn with ⟨a, rfl, hs⟩ | ⟨j, a, d', e', rfl, hs, rfl, he⟩ |
    ⟨r, rfl, hu, rfl, he⟩ | ⟨r, rfl, hu, rfl, he⟩
  · cases hs with
    | request hm hq _ c decnum _ hc hi =>
      refine ⟨Or.inl (Or.inl hm), ?_⟩
      rw [set_decoders_self]
      exact Or.inl ⟨rfl, rfl⟩
  all_goals cases he

/-- The invariant holds in every run without another `Open` of the decoder. -/
theorem Opened.run {name : Name} {i : Fin n} {tr : List (Action n × Event n)} (h : Opened name i s)
    (hrun : (machine cfg).Run s tr s')
    (hno : ∀ z ∈ tr, ∀ path, z.2 ≠ .request i (.open path)) : Opened name i s' := by
  refine hrun.invariant_trace (I := fun tr s =>
    (∀ z ∈ tr, ∀ path, z.2 ≠ .request i (.open path)) → Opened name i s) ?_ (fun _ => h) hno
  intro tr s x t e hI _ hn hno
  have hbefore := hI fun z hz => hno z (List.mem_append_left _ hz)
  exact (hbefore.step hn (hno (x, e) (List.mem_append_right _ (List.mem_singleton_self _)))).1

/-- After an `Open` of a file on decoder `i`, in any state of the process and wherever its thread
is, every stream that the decoder opens before the next `Open` on it is that file; the stream
starts at the beginning, and the next step of the thread sets `filepos` to zero. -/
theorem opened_after_open {t t' : Process n} {x y : Action n} {i : Fin n} {f name : Name}
    {memory : List UInt8} {tr : List (Action n × Event n)} (hnul : 0 ∉ f) (hlength : f.length ≤ 510)
    (hopen : (machine cfg).next s x = some (s', .request i (.open (stored memory f))))
    (hrun : (machine cfg).Run s' tr t) (hno : ∀ z ∈ tr, ∀ path, z.2 ≠ .request i (.open path))
    (hn : (machine cfg).next t y = some (t', .thread i (.opened name))) :
    name = f ∧ (∃ movie, (t'.decoders i).playlistFd = some ⟨movie, 0, false⟩) ∧
      ∀ tr' u u' z e, (machine cfg).Run t' tr' u → (∀ w ∈ tr', ∀ e', w.2 ≠ .thread i e') →
        (machine cfg).next u z = some (u', .thread i e) →
        (u'.decoders i).filepos = 0 ∧
          ∃ movie, (u'.decoders i).playlistFd = some ⟨movie, 0, false⟩ := by
  have hf : stored memory f = f := by
    refine stored_eq_self memory hnul ?_
    unfold maxEntryName
    omega
  rw [hf] at hopen
  have ht : Opened f i t := (opened_of_open hopen).run hrun hno
  obtain ⟨ht', hopened⟩ := ht.step hn (by simp)
  obtain ⟨rfl, hpc, movie, hmovie⟩ := hopened name rfl
  refine ⟨rfl, ⟨movie, hmovie⟩, ?_⟩
  intro tr' u u' z e hrun' hother hz
  have hu : Served u.main ∧ ((∀ w ∈ tr', ∀ e', w.2 ≠ .thread i e') →
      (u.decoders i).pc = .length ∧ (u.decoders i).playlistFd = some ⟨movie, 0, false⟩) := by
    refine hrun'.invariant_trace (I := fun tr' u => Served u.main ∧
      ((∀ w ∈ tr', ∀ e', w.2 ≠ .thread i e') →
        (u.decoders i).pc = .length ∧ (u.decoders i).playlistFd = some ⟨movie, 0, false⟩)) ?_
      ⟨ht'.served, fun _ => ⟨hpc, hmovie⟩⟩
    intro tr u w v e hI _ hn
    refine ⟨(served_step hI.1 hn).2, ?_⟩
    intro hother
    obtain ⟨hpc, hfd⟩ := hI.2 fun q hq => hother q (List.mem_append_left _ hq)
    obtain ⟨hpc', hfd'⟩ := stream_step hI.1 hn
      (hother (w, e) (List.mem_append_right _ (List.mem_singleton_self _)))
    exact ⟨hpc'.trans hpc, hfd'.trans hfd⟩
  obtain ⟨hupc, hufd⟩ := hu.2 hother
  rcases machine_cases hz with ⟨a, rfl, hs⟩ | ⟨j, a, d', e', rfl, hs, rfl, he⟩ |
    ⟨r, rfl, hr, rfl, he⟩ | ⟨r, rfl, hr, rfl, he⟩
  · cases hs
  · obtain ⟨rfl, rfl⟩ := Event.thread.inj he
    rw [set_decoders_self]
    obtain ⟨hpos, hstream⟩ := Decoder.measured_of_opened hupc hufd hs
    exact ⟨hpos, movie, hstream⟩
  · cases he
  · cases he

/-- A daemon with one decoder is told to open and to play a file, and opens it. -/
theorem opened_after_open_solo :
    ∃ s s' t t' x y tr name, (machine (solo .xmlrpc true)).next s x =
        some (s', .request 0 (.open (stored [] [98]))) ∧
      (machine (solo .xmlrpc true)).Run s' tr t ∧
      (machine (solo .xmlrpc true)).next t y = some (t', .thread 0 (.opened name)) ∧
      name = [98] := by
  have hexec : (machine (solo .xmlrpc true)).Reaches (fun _ _ => True) (init (solo .xmlrpc true))
      (List.replicate 6 (.main {}) ++ List.replicate 4 (.thread 0 {}))
      fun _ s => ∃ q ∈ (machine (solo .xmlrpc true)).next s
          (.main { command := some (.open 1 (stored [] [98])) }),
        q.2 = .request 0 (.open (stored [] [98])) ∧
        (machine (solo .xmlrpc true)).Reaches (fun _ _ => True) q.1
          [.main { command := some (.play 1) }, .thread 0 {}]
          fun tr t => tr.map Prod.snd = [.request 0 .play, .thread 0 .silent] ∧
            ∃ p ∈ (machine (solo .xmlrpc true)).next t
                (.thread 0 { fopen64 := .stream [7, 7] }),
              p.2 = .thread 0 (.opened [98]) := by decide +kernel
  obtain ⟨-, s, -, ⟨s', -⟩, hopen, rfl, hrest⟩ := hexec.exists_runOn
  obtain ⟨tr, t, hrun, htr, ⟨t', -⟩, hn, rfl⟩ := hrest.exists_runOn
  have hno : ∀ z ∈ tr, ∀ path, z.2 ≠ .request 0 (.open path) := by
    intro z hz path
    have hmem : z.2 ∈ tr.map Prod.snd := List.mem_map_of_mem hz
    rw [htr] at hmem
    rintro heq
    simp [heq] at hmem
  exact ⟨s, s', t, t', _, _, tr, [98], hopen, hrun, hn,
    (opened_after_open (by decide) (by decide) hopen hrun hno hn).1⟩

end Process

end IvySync

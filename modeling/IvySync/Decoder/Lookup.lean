import IvySync.Decoder.Step

/-!
# The position and the playlist

`update` moves the position and the edits change the playlist, and neither looks after the other.
The thread looks up `playlist[position]` after `update`.  In the modes `PLAY` and `CONT` the
position is brought back to the first entry when it leaves the playlist; in the other modes it stays
where it is, and so may be behind the end once entries have been removed.  `runOn_reaching_iff`
states when this happens.
-/

namespace IvySync

/-- The modes in which `update` leaves the position alone. -/
def Playmode.stays : Playmode → Bool
  | .play | .cont => false
  | .loop | .rand | .single => true

namespace Decoder

variable {d d' : Decoder}

/-! ### The position after update -/

/-- The first `update` goes to the first entry. -/
theorem update_position_first (h : d.position < 0) : d.update.position = 1 := by
  rw [update, if_pos h]

/-- Later ones stay there in the modes that stay. -/
theorem update_position_stays (h : 0 ≤ d.position) (hm : d.playmode.stays = true) :
    d.update.position = d.position := by
  rw [update, if_neg (Int.not_lt.mpr h)]
  cases hmode : d.playmode <;> simp_all [Playmode.stays, stop]

/-- In the other modes they go to the next entry, or to the first one behind the last. -/
theorem update_position_next (h : 0 ≤ d.position) (hm : d.playmode.stays = false) :
    d.update.position =
      if (d.playlist.length : ℤ) ≤ d.position then 1 else d.position + 1 := by
  rw [update, if_neg (Int.not_lt.mpr h)]
  cases hmode : d.playmode with
  | play =>
    by_cases hend : (d.playlist.length : ℤ) ≤ d.position
    · simp [hend, Int.lt_add_one_of_le hend]
    · have hnext : ¬ (d.playlist.length : ℤ) < d.position + 1 := by omega
      simp only [if_neg hend, if_neg hnext]
  | cont => by_cases hend : (d.playlist.length : ℤ) ≤ d.position <;> simp [hend]
  | loop => simp [hmode, Playmode.stays] at hm
  | rand => simp [hmode, Playmode.stays] at hm
  | single => simp [hmode, Playmode.stays] at hm

/-- `update` leaves the playlist and the playmode as they are. -/
theorem update_playlist (d : Decoder) :
    d.update.playlist = d.playlist ∧ d.update.playmode = d.playmode := by
  rw [update_eq]
  exact ⟨rfl, rfl⟩

/-- A position that is not the one before the first `update` is at least the first. -/
def Counted (d : Decoder) : Prop := 0 ≤ d.position → 1 ≤ d.position

/-- `update` leads to a position. -/
theorem one_le_update (h : d.Counted) : 1 ≤ d.update.position := by
  rcases Int.lt_or_le d.position 0 with hneg | hpos
  · rw [update_position_first hneg]
  · have h1 : 1 ≤ d.position := h hpos
    cases hm : d.playmode.stays with
    | true => rwa [update_position_stays hpos hm]
    | false =>
      rw [update_position_next hpos hm]
      split <;> omega

/-- `update` leads into the playlist exactly if it does not stay behind its end. -/
theorem update_le_iff (hne : d.playlist ≠ []) :
    d.update.position ≤ d.playlist.length ↔
      (d.playmode.stays = true → d.position ≤ d.playlist.length) := by
  have hlength : 0 < d.playlist.length := List.length_pos_iff.mpr hne
  rcases Int.lt_or_le d.position 0 with hneg | hpos
  · rw [update_position_first hneg]
    constructor
    · intro _ _
      omega
    · intro _
      omega
  · cases hm : d.playmode.stays with
    | true =>
      rw [update_position_stays hpos hm]
      simp
    | false =>
      rw [update_position_next hpos hm]
      simp only [Bool.false_eq_true, false_imp_iff, iff_true]
      split <;> omega

/-! ### Histories of edits and updates -/

/-- What changes the position or the playlist of a decoder. -/
inductive Operation
  | append (file : Name)
  | prepend (file : Name)
  | insert (file : Name) (pos : ℤ)
  | remove (pos : ℤ)
  | empty
  | setPlaymode (mode : Playmode)
  | update
  deriving DecidableEq, Repr

/-- Carry out an operation. -/
def operate (d : Decoder) : Operation → Decoder
  | .append file => d.append file
  | .prepend file => d.prepend file
  | .insert file pos => d.insert file pos
  | .remove pos => (d.remove pos).1
  | .empty => d.empty
  | .setPlaymode mode => { d with playmode := mode }
  | .update => d.update

/-- A decoder on which operations are carried out; the state after each is observed. -/
def operated : Machine Decoder Operation Decoder where
  next d x := some (d.operate x, d.operate x)

/-- No `update` finds the position behind the end of the playlist in a mode that stays there. -/
def Reaching (d : Decoder) (x : Operation) : Prop :=
  x = .update → d.playlist ≠ [] → d.playmode.stays = true → d.position ≤ d.playlist.length

instance (d : Decoder) (x : Operation) : Decidable (d.Reaching x) :=
  inferInstanceAs (Decidable (x = .update → d.playlist ≠ [] → d.playmode.stays = true →
    d.position ≤ d.playlist.length))

/-- The position is one of the playlist, so that a movie is found there. -/
def Found (d : Decoder) : Prop :=
  1 ≤ d.position ∧ d.position ≤ d.playlist.length ∧ ∃ movie, d.playlist.pick d.position = some movie

/-- A position from one to the length is enough. -/
theorem found_iff : d.Found ↔ 1 ≤ d.position ∧ d.position ≤ d.playlist.length := by
  constructor
  · rintro ⟨h1, h2, -⟩
    exact ⟨h1, h2⟩
  · rintro ⟨h1, h2⟩
    exact ⟨h1, h2, Playlist.exists_pick (by omega) (by omega)⟩

/-- No operation leads to the position zero. -/
theorem Counted.operate (h : d.Counted) (x : Operation) : (d.operate x).Counted := by
  cases x with
  | empty => exact fun _ => le_refl (1 : ℤ)
  | update => exact fun _ => one_le_update h
  | _ => exact h

/-- A run keeps the position counted. -/
theorem counted_run {tr : List (Operation × Decoder)} (h : d.Counted)
    (hrun : operated.Run d tr d') : d'.Counted := by
  refine hrun.invariant (I := Counted) ?_ h
  intro s x t e hI _ hn
  obtain ⟨rfl, -⟩ := Prod.mk.inj (Option.some.inj hn)
  exact hI.operate x

/-- An `update` finds a movie in a playlist that is not empty exactly when it is within reach. -/
theorem reaching_update_iff (h : d.Counted) :
    d.Reaching .update ↔ (d.update.playlist ≠ [] → d.update.Found) := by
  rw [(update_playlist d).1]
  constructor
  · intro hreach hne
    rw [found_iff, (update_playlist d).1]
    exact ⟨one_le_update h, (update_le_iff hne).mpr (hreach rfl hne)⟩
  · intro hfound _ hne
    have hle := (found_iff.mp (hfound hne)).2
    rw [(update_playlist d).1] at hle
    exact (update_le_iff hne).mp hle

/-- In every run of operations from a new decoder, whenever `update` returns with a playlist that is
not empty the position is one of it, exactly if no `update` finds the position behind the end in
one of the modes `LOOP`, `RAND` and `SINGLE`. -/
theorem runOn_reaching_iff (fd : ℤ) (dummy : Bool) (playmode : Playmode)
    (tr : List (Operation × Decoder)) (d : Decoder) :
    operated.RunOn Reaching (new fd dummy playmode []) tr d ↔
      operated.Run (new fd dummy playmode []) tr d ∧
        ∀ y ∈ tr, y.1 = .update → y.2.playlist ≠ [] → y.2.Found := by
  have hnew : (new fd dummy playmode []).Counted := by
    intro h
    simp [new] at h
  constructor
  · intro h
    refine ⟨h.run, ?_⟩
    refine h.forall_steps (I := Counted) ?_ hnew
    intro s x t e hI hC hn
    obtain ⟨rfl, rfl⟩ := Prod.mk.inj (Option.some.inj hn)
    refine ⟨hI.operate x, ?_⟩
    rintro rfl
    exact (reaching_update_iff hI).mp hC
  · rintro ⟨h, hfound⟩
    induction h with
    | nil => exact Machine.RunOn.nil
    | @snoc tr t u x e hrun _ hn ih =>
      have hbefore := ih fun y hy => hfound y (List.mem_append_left _ hy)
      refine hbefore.snoc ?_ hn
      obtain ⟨rfl, rfl⟩ := Prod.mk.inj (Option.some.inj hn)
      intro hx
      subst hx
      have hlast := hfound (.update, t.update) (List.mem_append_right _ (List.mem_singleton_self _))
      exact (reaching_update_iff (counted_run hnew hrun)).mpr (hlast rfl) rfl

/-- Of two entries, the second of which plays, one is removed; in the mode `LOOP` the position stays
behind the end. -/
theorem not_runOn_reaching :
    ¬ ∀ (fd : ℤ) (dummy : Bool) (playmode : Playmode) (tr : List (Operation × Decoder))
        (d : Decoder), operated.Run (new fd dummy playmode []) tr d →
      ∀ y ∈ tr, y.1 = .update → y.2.playlist ≠ [] → y.2.Found := by
  intro hall
  have hexec : operated.Reaches (fun _ _ => True) (new 0 true .single [])
      [.append [97], .append [98], .setPlaymode .cont, .update, .update, .remove 2,
        .setPlaymode .loop, .update]
      fun tr _ => ∃ y ∈ tr, y.1 = .update ∧ y.2.playlist ≠ [] ∧
        ¬ y.2.position ≤ y.2.playlist.length := by decide +kernel
  obtain ⟨tr, d, hrun, y, hy, hupdate, hne, hout⟩ := hexec.exists_runOn
  exact hout (hall _ _ _ tr d hrun y hy hupdate hne).2.1

end Decoder

end IvySync

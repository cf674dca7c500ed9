import IvySync.Saved.Roundtrip

/-!
# The lines of a playlist file

The loop of `load` tests for the end of the file when it has read a line, and leaves without that
line.  So a last line is taken for an entry of the playlist only if it ends in a newline.
-/

namespace IvySync

open Text

namespace Linklist

/-- `load` can read the directory, and the file that it opens has this content. -/
structure Opens (w : LoadAnswers) (deviceNum : ℤ) (disk : Disk) (content : List UInt8) : Prop where
  directory : w.stat = .found
  file : ∃ entries, w.entries = some entries ∧
    disk (playlistPath w.home (choose deviceNum w.now w.today w.pltime entries)) = some content

/-- Whatever the playlist holds already: `load` from a file of this content appends one entry for
each line of it, with that line without its blanks at both ends, and returns their number. -/
def Loads (content : List UInt8) : Prop :=
  ∀ (w : LoadAnswers) (deviceNum : ℤ) (disk : Disk) (L : ListId) (h : Heap) (ys : Playlist Addr),
    Opens w deviceNum disk content → WellFormed h L ys →
    (Function.Injective fun k => (w.alloc k).1) → (∀ k, (w.alloc k).1 ∉ ys) →
    ∃ zs, WellFormed (load w deviceNum disk L h).1 L (ys ++ zs) ∧
      names (load w deviceNum disk L h).1 (ys ++ zs) =
        names h ys ++ (lines 10 content).map (trim blank) ∧
      (load w deviceNum disk L h).2 = (lines 10 content).length

variable {w : LoadAnswers} {deviceNum : ℤ} {disk : Disk} {L : ListId} {h : Heap}
  {content : List UInt8} {ys : Playlist Addr}

/-- `load` runs its loop on the file that it opens. -/
theorem load_eq (hopens : Opens w deviceNum disk content) :
    load w deviceNum disk L h =
      ((loadLoop w.alloc L w.line ⟨content, 0, false⟩ h 0).1,
        ((loadLoop w.alloc L w.line ⟨content, 0, false⟩ h 0).2 : ℤ)) := by
  obtain ⟨hstat, entries, hentries, hdisk⟩ := hopens
  unfold load
  rw [if_neg (by simp [hstat]), hentries]
  dsimp only
  rw [hdisk]

/-- `load` appends the lines of the file that end in a newline. -/
theorem load_joined (ls : List Name) (rest : List UInt8)
    (hopens : Opens w deviceNum disk (joined 10 ls ++ rest)) (hw : WellFormed h L ys)
    (halloc : Function.Injective fun k => (w.alloc k).1) (hnew : ∀ k, (w.alloc k).1 ∉ ys)
    (hlines : ∀ name ∈ ls, Line name) (hrest : 10 ∉ rest ∧ rest.length ≤ 510) :
    ∃ zs, WellFormed (load w deviceNum disk L h).1 L (ys ++ zs) ∧
      names (load w deviceNum disk L h).1 (ys ++ zs) = names h ys ++ ls.map (trim blank) ∧
      (load w deviceNum disk L h).2 = ls.length := by
  obtain ⟨zs, hzs, hnames, hcount⟩ := loadLoop_eq rest w.line (f := ⟨joined 10 ls ++ rest, 0, false⟩)
    (c := 0) halloc hlines hrest rfl rfl hw fun k _ => hnew k
  rw [load_eq hopens]
  refine ⟨zs, hzs, hnames, ?_⟩
  dsimp only
  rw [hcount]
  simp

/-- What `load` sees when there is one file for every decoder, and that can be opened. -/
def oneFile : LoadAnswers where
  home := [47]
  now := ⟨12, 0⟩
  today := bytesOf "01Jan05"
  entries := some ∅
  pltime := ⟨0, 0⟩
  line := []
  alloc k := (k, [])

theorem opens_oneFile (content : List UInt8) : Opens oneFile 7 (fun _ => some content) content :=
  ⟨rfl, ∅, rfl, rfl⟩

/-- A playlist file with lines of at most 510 bytes is loaded line by line exactly if its last line
ends in a newline. -/
theorem loads_iff (hlines : ∀ line ∈ lines 10 content, 0 ∉ line ∧ line.length ≤ 510) :
    Loads content ↔ ∀ c ∈ content.getLast?, c = 10 := by
  obtain ⟨ls, rest, rfl, hls, hrest, hsplit⟩ := exists_joined_append 10 content
  rw [hsplit] at hlines
  have hline : ∀ name ∈ ls, Line name := by
    intro name hname
    obtain ⟨h0, hlength⟩ := hlines name (List.mem_append_left _ hname)
    exact ⟨h0, hls name hname, hlength⟩
  have hshort : rest.length ≤ 510 := by
    by_cases hnil : rest = []
    · simp [hnil]
    · exact (hlines rest (by simp [hnil])).2
  rw [getLast?_joined_append hrest]
  constructor
  · intro hloads
    obtain ⟨_, -, -, hcount⟩ := hloads oneFile 7 _ 0 (new 0 unused) [] (opens_oneFile _)
      (wellFormed_new 0 unused) (fun _ _ h => h) (by simp)
    obtain ⟨_, -, -, hcount'⟩ := load_joined _ _ (opens_oneFile _) (wellFormed_new 0 unused)
      (fun _ _ h => h) (by simp) hline ⟨hrest, hshort⟩
    rw [hcount', hsplit] at hcount
    by_contra hne
    simp [hne] at hcount
  · rintro rfl w deviceNum disk L h ys hopens hw halloc hnew
    rw [hsplit, if_pos rfl, List.append_nil]
    exact load_joined _ _ hopens hw halloc hnew hline ⟨hrest, hshort⟩

/-- Two lines, the second one blank. -/
theorem loads_twoLines : Loads (bytesOf " a.mpg\n\n") :=
  (loads_iff (by decide)).2 (by rintro _ ⟨⟩; rfl)

/-- The only line of a file is lost when no newline follows it. -/
theorem not_loads_unterminated :
    ¬ ∀ content : List UInt8, (∀ line ∈ lines 10 content, 0 ∉ line ∧ line.length ≤ 510) →
      Loads content := by
  intro hall
  have hlines : lines 10 (bytesOf "a.mpg") = [bytesOf "a.mpg"] := by decide
  have hloads := hall (bytesOf "a.mpg") (by rw [hlines]; decide)
  obtain ⟨_, -, -, hcount⟩ := hloads oneFile 7 _ 0 (new 0 unused) [] (opens_oneFile _)
    (wellFormed_new 0 unused) (fun _ _ h => h) (by simp)
  obtain ⟨_, -, -, hcount'⟩ := load_joined [] (bytesOf "a.mpg") (opens_oneFile _)
    (wellFormed_new 0 unused) (fun _ _ h => h) (by simp) (by simp) (by decide)
  rw [hlines] at hcount
  exact absurd (hcount'.symm.trans hcount) (by decide)

end Linklist

end IvySync

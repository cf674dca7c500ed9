import IvySync.Linklist.Refinement
import IvySync.Saved.Defs

/-!
# A playlist that is saved and loaded again

`save` writes the names of the playlist as lines, and `load` reads lines, trims them and appends
them.  `load_save` follows a playlist through both: what comes back are the names without the blanks
at their ends, in their order, as long as no other file of the directory is taken for the playlist.
-/

namespace IvySync

open Text

/-! ### Names and lines -/

/-- A line that `load` has read and trimmed. -/
theorem cString_chomp_line {name rest : List UInt8} (h0 : 0 ∉ name) (h10 : 10 ∉ name)
    (hn : name.length + 1 < maxChompSize) :
    cString (chomp (name ++ 10 :: 0 :: rest)) = trim blank name := by
  have hline := cString_chomp (s := name ++ [10]) rest (by simp [h0]) (by simpa using hn)
  rw [List.append_assoc, List.singleton_append] at hline
  rw [hline, dropWhile_append_of_not rfl, List.rdropWhile_concat, if_pos (by decide), trim]
  refine rdropWhile_congr fun c hc => ?_
  have hmem : c ∈ name := (List.dropWhile_suffix blank).subset hc
  have hc10 : c ≠ 10 := fun h => h10 (h ▸ hmem)
  simp [blankOrNewline, hc10]

/-- What is stored of a buffer is what is stored of the string in it. -/
theorem stored_cString (memory file : List UInt8) :
    stored memory (cString file) = stored memory file := by
  have hidem : cString (cString file) = cString file := by
    unfold cString
    exact List.takeWhile_idem
  simp only [stored, strncpy, hidem]

/-- What is left of a name is no longer than the name. -/
theorem trim_sublist (name : Name) : (trim blank name).Sublist name :=
  (List.rdropWhile_prefix _ _).sublist.trans (List.dropWhile_suffix _).sublist

namespace Linklist

variable {h h' : Heap} {L L' : ListId} {xs ys : Playlist Addr} {deviceNum : ℤ}

/-- The names of the entries of a list. -/
def names (h : Heap) (xs : Playlist Addr) : Playlist Name := xs.map fun a => cString (h.name a)

/-- An edit of the list is the edit of the names. -/
theorem names_edit {a : Playlist.Edit Arrival} (hw : WellFormed h L xs) (hfresh : Fresh h a)
    (hfits : Fits a) (hedited : Edited h h' L (xs.edit (a.map Arrival.addr)).1 a.added) :
    names h' (xs.edit (a.map Arrival.addr)).1 =
      ((names h xs).edit (a.map Arrival.file)).1 := by
  have hentries : ∀ (h : Heap) (xs : Playlist Addr), names h xs = (entries h xs).map Prod.snd := by
    intro h xs
    rw [names, entries, List.map_map]
    rfl
  rw [hentries, ← entries_edit hw hfresh hedited, hentries, ← map_entry_snd hfits,
    Playlist.edit_map]

/-- A name that `save` and `load` can handle: it is one line, and fits. -/
def Line (name : Name) : Prop := 0 ∉ name ∧ 10 ∉ name ∧ name.length ≤ 510

/-! ### Saving -/

/-- `save` writes each name with a newline, and counts them. -/
theorem saveLoop_eq {fuel : ℕ} {o : Option Addr} {out : List UInt8} {c : ℤ}
    (hv : Linked.Visits h.next o xs) (hfuel : xs.length ≤ fuel) :
    saveLoop h fuel o out c = some (out ++ joined 10 (names h xs), c + xs.length) := by
  induction xs generalizing fuel o out c with
  | nil =>
    obtain rfl : o = none := hv
    cases fuel <;> simp [saveLoop, names]
  | cons a xs ih =>
    obtain ⟨rfl, hv⟩ := hv
    obtain ⟨fuel, rfl⟩ : ∃ k, fuel = k + 1 := ⟨fuel - 1, by simp at hfuel; omega⟩
    rw [saveLoop, ih hv (by simpa using hfuel)]
    simp only [names, List.map_cons, joined_cons, List.length_cons, List.append_assoc,
      List.singleton_append, Option.some.injEq, Prod.mk.injEq, true_and]
    push_cast
    omega

/-- `save` of a well-formed list. -/
theorem save_eq {v : SaveAnswers} {fuel : ℕ} {disk : Disk} (hw : WellFormed h L xs)
    (hstat : v.stat ≠ .error) (hwritable : v.writable = true) (hfuel : xs.length ≤ fuel) :
    save v deviceNum fuel L h disk =
      some (Function.update disk (playlistPath v.home (videoFile deviceNum))
        (some (joined 10 (names h xs))), (xs.length : ℤ)) := by
  unfold save
  rw [if_neg hstat, hwritable, saveLoop_eq hw.forward hfuel]
  simp

/-! ### Choosing -/

/-- The name of the file of a decoder is short. -/
theorem videoFile_length (deviceNum : ℤ) : (videoFile deviceNum).length ≤ 15 := by
  have hdigits := length_printU deviceNum
  have hvideo : (bytesOf "video").length = 5 := rfl
  rw [videoFile, List.length_append]
  omega

/-- A short text is not cut. -/
theorem snprintf_videoFile {n : ℕ} (hn : 15 < n) :
    snprintf n (videoFile deviceNum) = videoFile deviceNum :=
  List.take_of_length_le (by have := videoFile_length deviceNum; omega)

/-- When no other file has the name of the decoder in its own, `load` chooses the file that `save`
has written. -/
theorem choose_eq {now pltime : Tm} {today : Name} {entries : Finset Name}
    (hother : ∀ name ∈ entries, strstr name (videoFile deviceNum) = true →
      name = videoFile deviceNum) :
    choose deviceNum now today pltime entries = videoFile deviceNum := by
  have hfold : ∀ files : List Name, (∀ name ∈ files, name ∈ entries) →
      (files.foldr (checking now (videoFile deviceNum))
        ⟨videoFile deviceNum, ⟨0, 0⟩, pltime⟩).thePlaylist = videoFile deviceNum := by
    intro files hfiles
    induction files with
    | nil => rfl
    | cons name files ih =>
      have hrest := ih fun x hx => hfiles x (by simp [hx])
      rw [List.foldr_cons, checking]
      split_ifs with hno hv
      · exact hrest
      · have hname := hother name (hfiles name (by simp)) (by simpa using hno)
        dsimp only
        rw [hname, snprintf_videoFile (by omega)]
      all_goals
        have hname := hother name (hfiles name (by simp)) (by simpa using hno)
        rw [hname] at hv
        exact absurd rfl hv
  unfold choose
  rw [snprintf_videoFile (by omega), snprintf_videoFile (by omega)]
  refine hfold _ fun name hname => ?_
  rw [scandir, Finset.mem_sort, Finset.mem_filter] at hname
  exact hname.1

/-! ### Loading -/

/-- Appending a line that has been read and trimmed. -/
theorem names_append {x : Arrival} {name : Name} (hw : WellFormed h L ys) (hx : x.addr ∉ ys)
    (hfile : cString x.file = trim blank name) (hname : Line name) :
    WellFormed (Decoder.append L h x).1 L (ys ++ [x.addr]) ∧
      names (Decoder.append L h x).1 (ys ++ [x.addr]) = names h ys ++ [trim blank name] := by
  obtain ⟨h0, -, hlength⟩ := hname
  obtain ⟨hwf, hkept, hnamed⟩ := append_edited hw hx
  refine ⟨hwf, ?_⟩
  have hsub := trim_sublist name
  have hstored : stored x.memory x.file = trim blank name := by
    rw [← stored_cString, hfile]
    refine stored_eq_self x.memory (fun h => h0 (hsub.subset h)) ?_
    exact lt_of_le_of_lt (hsub.length_le.trans hlength) (by decide)
  simp only [names, List.map_append, List.map_cons, List.map_nil]
  congr 1
  · refine List.map_congr_left fun a ha => ?_
    rw [hkept a]
    rintro y hy rfl
    obtain rfl := Option.some.inj hy
    exact hx ha
  · rw [hnamed x rfl, hstored]

/-- The loop of `load` reads a line, trims it in its buffer and appends it. -/
theorem loadLoop_line (alloc : ℕ → Addr × List UInt8) (L : ListId) (line : List UInt8) (h : Heap)
    (c : ℕ) {rest : List UInt8} {f : FILE} {name : Name}
    (hf : f.movie.drop f.offset = name ++ 10 :: rest) (heof : f.eof = false)
    (hname : Line name) :
    ∃ line', cString line' = trim blank name ∧
      loadLoop alloc L line f h c =
        loadLoop alloc L line' { f with offset := f.offset + (name.length + 1) }
          (Decoder.append L h ⟨(alloc c).1, (alloc c).2, line'⟩).1 (c + 1) := by
  obtain ⟨h0, h10, hlength⟩ := hname
  have hline := FILE.fgets_line line 1023 hf h10 (by omega)
  have hfits : name.length + 1 < maxChompSize :=
    lt_of_le_of_lt (Nat.succ_le_succ hlength) (by decide)
  refine ⟨chomp (name ++ 10 :: 0 :: line.drop (name.length + 2)),
    cString_chomp_line h0 h10 hfits, ?_⟩
  rw [loadLoop]
  split
  case h_1 hnone =>
    rw [hline] at hnone
    cases hnone
  case h_2 line' f' hsome =>
    rw [hline] at hsome
    obtain ⟨rfl, rfl⟩ := Prod.mk.inj (Option.some.inj hsome)
    dsimp only
    rw [if_neg (by simp [heof])]
    rfl

/-- The loop of `load` ends where no line with a newline is left, and does not look at the rest. -/
theorem loadLoop_rest (alloc : ℕ → Addr × List UInt8) (L : ListId) (line : List UInt8) (h : Heap)
    (c : ℕ) {f : FILE} (hrest : 10 ∉ f.movie.drop f.offset)
    (hlength : (f.movie.drop f.offset).length ≤ 510) : loadLoop alloc L line f h c = (h, c) := by
  rw [loadLoop]
  split
  case h_1 => rfl
  case h_2 line' f' hsome =>
    by_cases hend : f.movie.drop f.offset = []
    · rw [FILE.fgets_end hend] at hsome
      cases hsome
    · obtain ⟨_, _, hlast, heof⟩ := FILE.fgets_unterminated line 1023 hend hrest (by omega)
      rw [hlast] at hsome
      obtain ⟨rfl, rfl⟩ := Prod.mk.inj (Option.some.inj hsome)
      rw [if_pos heof]

/-- `load` appends the names of the lines that are left, trimmed, as far as they end in a
newline. -/
theorem loadLoop_eq {alloc : ℕ → Addr × List UInt8} {lines : List Name} (rest line : List UInt8)
    {f : FILE} {c : ℕ} (halloc : Function.Injective fun k => (alloc k).1)
    (hlines : ∀ name ∈ lines, Line name) (hrest : 10 ∉ rest ∧ rest.length ≤ 510)
    (hf : f.movie.drop f.offset = joined 10 lines ++ rest)
    (heof : f.eof = false) (hw : WellFormed h L ys) (hnew : ∀ k, c ≤ k → (alloc k).1 ∉ ys) :
    ∃ zs, WellFormed (loadLoop alloc L line f h c).1 L (ys ++ zs) ∧
      names (loadLoop alloc L line f h c).1 (ys ++ zs) = names h ys ++ lines.map (trim blank) ∧
      (loadLoop alloc L line f h c).2 = c + lines.length := by
  induction lines generalizing line f h c ys with
  | nil =>
    rw [joined_nil, List.nil_append] at hf
    rw [loadLoop_rest alloc L line h c (hf ▸ hrest.1) (hf ▸ hrest.2)]
    exact ⟨[], by simpa using hw, by simp, rfl⟩
  | cons name lines ih =>
    have hname := hlines name (by simp)
    rw [joined_cons, List.append_assoc, List.cons_append] at hf
    obtain ⟨line', hchomp, hloop⟩ := loadLoop_line alloc L line h c hf heof hname
    obtain ⟨hwf, hnames⟩ := names_append (x := ⟨(alloc c).1, (alloc c).2, line'⟩) hw
      (hnew c (le_refl c)) hchomp hname
    have hdrop : f.movie.drop (f.offset + (name.length + 1)) = joined 10 lines ++ rest := by
      rw [← List.drop_drop, hf, ← List.singleton_append, ← List.append_assoc]
      exact List.drop_left' (by simp)
    have hnew' : ∀ k, c + 1 ≤ k → (alloc k).1 ∉ ys ++ [(alloc c).1] := by
      intro k hk hmem
      rcases List.mem_append.mp hmem with hmem | hmem
      · exact hnew k (by omega) hmem
      · have hkc : k = c := halloc (List.mem_singleton.mp hmem)
        omega
    rw [hloop]
    obtain ⟨zs, hzs, hzs', hcount⟩ := ih line'
      (f := { f with offset := f.offset + (name.length + 1) })
      (fun x hx => hlines x (by simp [hx])) hdrop heof hwf hnew'
    rw [List.append_assoc] at hzs hzs'
    refine ⟨(alloc c).1 :: zs, hzs, ?_, ?_⟩
    · rw [List.singleton_append] at hzs'
      rw [hzs', hnames]
      simp
    · rw [hcount, List.length_cons]
      omega

/-- A playlist is saved and loaded into an empty one by a decoder of the same number: both calls
return the number of its entries, and the names come back without the blanks at their ends.  It is
the same playlist exactly if no name begins or ends with a blank. -/
theorem load_save (home : Name) (disk : Disk) {v : SaveAnswers} {w : LoadAnswers}
    {entries : Finset Name} {fuel : ℕ} (hw : WellFormed h L xs) (hempty : WellFormed h' L' [])
    (hnames : ∀ name ∈ names h xs, 10 ∉ name ∧ name.length ≤ 510)
    (hhome : v.home = home ∧ w.home = home)
    (hsave : v.stat ≠ .error ∧ v.writable = true)
    (hload : w.stat = .found ∧ w.entries = some entries)
    (hother : ∀ name ∈ entries, strstr name (videoFile deviceNum) = true →
      name = videoFile deviceNum)
    (halloc : Function.Injective fun k => (w.alloc k).1) (hfuel : xs.length ≤ fuel) :
    ∃ disk', save v deviceNum fuel L h disk = some (disk', (xs.length : ℤ)) ∧
      ∃ h'' ys, load w deviceNum disk' L' h' = (h'', (xs.length : ℤ)) ∧ WellFormed h'' L' ys ∧
        names h'' ys = (names h xs).map (trim blank) ∧
        (names h'' ys = names h xs ↔ ∀ name ∈ names h xs,
          (∀ c ∈ name.head?, blank c = false) ∧ ∀ c ∈ name.getLast?, blank c = false) := by
  have hlines : ∀ name ∈ names h xs, Line name := by
    intro name hname
    refine ⟨?_, hnames name hname⟩
    obtain ⟨a, -, rfl⟩ := List.mem_map.mp hname
    exact zero_notMem_cString (h.name a)
  refine ⟨_, save_eq hw hsave.1 hsave.2 hfuel, ?_⟩
  obtain ⟨ys, hys, hback, hcount⟩ := loadLoop_eq [] w.line
    (f := ⟨joined 10 (names h xs), 0, false⟩) (c := 0) halloc hlines (by simp) (by simp) rfl hempty
    (by simp)
  rw [List.nil_append] at hys hback
  rw [show names h' [] = [] from rfl, List.nil_append] at hback
  refine ⟨_, ys, ?_, hys, hback, ?_⟩
  · unfold load
    rw [if_neg (by simp [hload.1]), hload.2]
    dsimp only
    rw [choose_eq hother, hhome.1, hhome.2, Function.update_self]
    dsimp only
    rw [hcount]
    simp [names]
  · have hself : (names h xs).map (trim blank) = names h xs ↔
        ∀ name ∈ names h xs, trim blank name = name := by
      simpa using List.map_inj_left (f := trim blank) (g := id) (l := names h xs)
    rw [hback, hself]
    exact forall₂_congr fun name _ => trim_eq_self_iff

/-- A playlist of two names, the first one with a blank in front. -/
def twoNames : Heap :=
  (Decoder.append 0 (Decoder.append 0 (new 0 unused) ⟨5, [], [32, 97]⟩).1 ⟨6, [], [98]⟩).1

/-- The directory when the decoder of number 7 loads its playlist. -/
def twoFiles : LoadAnswers where
  home := [47]
  now := ⟨12, 0⟩
  today := bytesOf "01Jan05"
  entries := some {videoFile 7, bytesOf "video8"}
  pltime := ⟨0, 0⟩
  line := []
  alloc k := (k, [])

/-- The blank is lost. -/
theorem load_save_two :
    ∃ disk', save ⟨[47], .enoent, true⟩ 7 2 0 twoNames (fun _ => none) = some (disk', 2) ∧
      ∃ h'' ys, load twoFiles 7 disk' 1 (new 1 unused) = (h'', 2) ∧ WellFormed h'' 1 ys ∧
        names h'' ys = [[97], [98]] := by
  have hnames : names twoNames [5, 6] = [[32, 97], [98]] := by decide
  have hother : ∀ name ∈ ({videoFile 7, bytesOf "video8"} : Finset Name),
      strstr name (videoFile 7) = true → name = videoFile 7 := by decide +kernel
  obtain ⟨disk', hsave, h'', ys, hload, hys, hback, -⟩ :=
    load_save [47] (fun _ => none) (v := ⟨[47], .enoent, true⟩) (w := twoFiles)
      (by decide : WellFormed twoNames 0 [5, 6])
      (wellFormed_new 1 unused) (by rw [hnames]; decide) ⟨rfl, rfl⟩ ⟨by decide, rfl⟩ ⟨rfl, rfl⟩
      hother (fun _ _ h => h) (le_refl 2)
  refine ⟨disk', hsave, h'', ys, hload, hys, ?_⟩
  rw [hback, hnames]
  decide

end Linklist

end IvySync

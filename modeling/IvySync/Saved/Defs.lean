import IvySync.Utils
import Mathlib.Data.List.Lex

/-!
# The saved playlists

`Decoder::init` reads a number off the path of the device, `Decoder::save` writes the playlist to
the file in the directory `.ivysync` that is named after this number, and `Decoder::load` looks for
a playlist of that number there.  Both work on the pointer structure of the playlist.  What the
system answers is in `SaveAnswers` and `LoadAnswers`; the content of the files is a map from paths.
-/

namespace IvySync

/-- A decoder with a device. -/
structure Channel where
  decoder : Decoder
  /-- The path of the device, in its array of 512 bytes. -/
  device : List UInt8
  deviceNum : ℤ
  deriving DecidableEq, Repr

/-- `MAXPATH`. -/
def maxPath : ℕ := 512

namespace Channel

/-- The number of a device: the last two characters of its path. -/
def number (dev : Name) : ℤ := atoi (dev.drop (dev.length - 2))

/-- `Decoder::init`, with the descriptor that `open` returns; `none` when the device cannot be
opened. -/
def init (dev : Name) (fd : ℤ) (d : Decoder) : Option Channel :=
  if d.dummy then some ⟨d, strncpy [] dev maxPath, number dev⟩
  else if fd < 0 then none
  else some ⟨{ d with fd := fd }, strncpy [] dev maxPath, number dev⟩

end Channel

/-! ### The directory -/

/-- What `stat` returns. -/
inductive StatResult
  | found
  | enoent
  | error
  deriving DecidableEq, Repr

/-- The content of the files that can be opened, by their paths. -/
abbrev Disk := Name → Option (List UInt8)

/-- The file that a decoder saves its playlist to. -/
def videoFile (deviceNum : ℤ) : Name := bytesOf "video" ++ printU deviceNum

/-- The path of a file in the directory, in a buffer of 511 bytes. -/
def playlistPath (home file : Name) : Name := snprintf 511 (home ++ bytesOf "/.ivysync/" ++ file)

/-- `playlist_selector`, with the date of today. -/
def playlistSelector (today dName : Name) : Bool :=
  if strstr dName today then true
  else strstr dName (bytesOf "video")

/-- `alphasort`, in the C locale. -/
def alphasort (a b : Name) : Prop := a.map UInt8.toNat ≤ b.map UInt8.toNat

instance : DecidableRel alphasort := fun a b =>
  inferInstanceAs (Decidable (a.map UInt8.toNat ≤ b.map UInt8.toNat))

instance : IsTrans Name alphasort := ⟨fun _ _ _ => le_trans⟩

instance : Std.Total alphasort := ⟨fun _ _ => le_total _ _⟩

instance : Std.Antisymm alphasort where
  antisymm a b hab hba := by
    have h : a.map UInt8.toNat = b.map UInt8.toNat := le_antisymm hab hba
    exact List.map_injective_iff.mpr (fun x y => UInt8.toNat_inj.mp) h

/-- `scandir` on a directory with these entries. -/
def scandir (today : Name) (entries : Finset Name) : List Name :=
  (entries.filter fun dName => playlistSelector today dName).sort alphasort

/-! ### The choice of a playlist -/

/-- The variables of the loop in `load` that looks for a playlist. -/
structure Search where
  thePlaylist : Name
  /-- The time of the playlist that has been chosen. -/
  plseltime : Tm
  pltime : Tm
  deriving DecidableEq, Repr

/-- One file is looked at. -/
def checking (now : Tm) (videodev dName : Name) (st : Search) : Search :=
  if !strstr dName videodev then st
  else if dName.head? = some 118 then { st with thePlaylist := snprintf 511 dName }
  else
    let pltime := getTime dName st.pltime
    let st := { st with pltime := pltime }
    if st.plseltime.hour > pltime.hour then st
    else if st.plseltime.hour = pltime.hour ∧ st.plseltime.min ≥ pltime.min then st
    else if now.hour > pltime.hour then
      { st with thePlaylist := snprintf 511 dName, plseltime := pltime }
    else if now.hour = pltime.hour ∧ now.min ≥ pltime.min then
      { st with thePlaylist := snprintf 511 dName, plseltime := pltime }
    else st

/-- The playlist file that `load` chooses: the files are looked at from the last one on.  `pltime`
is what the variable of that name holds at first. -/
def choose (deviceNum : ℤ) (now : Tm) (today : Name) (pltime : Tm) (entries : Finset Name) : Name :=
  let videodev := snprintf 63 (videoFile deviceNum)
  let st : Search := ⟨snprintf 511 (videoFile deviceNum), ⟨0, 0⟩, pltime⟩
  ((scandir today entries).foldr (checking now videodev) st).thePlaylist

/-! ### Saving and loading -/

/-- What the system answers to `save`. -/
structure SaveAnswers where
  /-- `$HOME`. -/
  home : Name
  stat : StatResult := .found
  /-- The file can be opened for writing. -/
  writable : Bool := true
  deriving DecidableEq, Repr

/-- What the system answers to `load`. -/
structure LoadAnswers where
  home : Name
  stat : StatResult := .found
  now : Tm
  /-- The date of today, as `%d%b%y`. -/
  today : Name
  /-- The entries of the directory, `none` when it cannot be read. -/
  entries : Option (Finset Name)
  /-- What the variables `pltime` and `line` hold at first. -/
  pltime : Tm
  line : List UInt8
  /-- The addresses of new entries, each with what the memory there holds. -/
  alloc : ℕ → Addr × List UInt8

namespace Linklist

/-- The loop of `Decoder::save`, given up after a number of rounds. -/
def saveLoop (h : Heap) : ℕ → Option Addr → List UInt8 → ℤ → Option (List UInt8 × ℤ)
  | _, none, out, c => some (out, c)
  | 0, some _, _, _ => none
  | fuel + 1, some ent, out, c =>
    saveLoop h fuel (h.next ent) (out ++ cString (h.name ent) ++ [10]) (c + 1)

/-- `Decoder::save` of the playlist at `L`. -/
def save (w : SaveAnswers) (deviceNum : ℤ) (fuel : ℕ) (L : ListId) (h : Heap) (disk : Disk) :
    Option (Disk × ℤ) :=
  if w.stat = .error then some (disk, -1)
  else if !w.writable then some (disk, -1)
  else (saveLoop h fuel (h.first L) [] 0).map fun r =>
    (Function.update disk (playlistPath w.home (videoFile deviceNum)) (some r.1), r.2)

/-- The loop of `Decoder::load` that reads the lines. -/
def loadLoop (alloc : ℕ → Addr × List UInt8) (L : ListId) (line : List UInt8) (f : FILE) (h : Heap)
    (c : ℕ) : Heap × ℕ :=
  match hf : f.fgets line 1023 with
  | none => (h, c)
  | some (line, f') =>
    if f'.eof then (h, c)
    else
      let line := chomp line
      let r := Decoder.append L h ⟨(alloc c).1, (alloc c).2, line⟩
      loadLoop alloc L line f' r.1 (if r.2 then c + 1 else c)
termination_by f.movie.length - f.offset
decreasing_by exact FILE.fgets_lt hf

/-- `Decoder::load` into the playlist at `L`. -/
def load (w : LoadAnswers) (deviceNum : ℤ) (disk : Disk) (L : ListId) (h : Heap) : Heap × ℤ :=
  if w.stat ≠ .found then (h, -1)
  else match w.entries with
    | none => (h, -1)
    | some entries =>
      let thePlaylist := choose deviceNum w.now w.today w.pltime entries
      match disk (playlistPath w.home thePlaylist) with
      | none => (h, -1)
      | some content =>
        let r := loadLoop w.alloc L w.line ⟨content, 0, false⟩ h 0
        (r.1, r.2)

end Linklist

end IvySync

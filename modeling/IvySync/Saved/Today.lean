import Mathlib.Data.Prod.Lex
import IvySync.Saved.Devices

/-!
# The playlist of today

The comment at the top of `load` says which playlist it opens: the latest one of today that is due,
or else the file of the device.  The loop behind it compares the hours and minutes of every file that
has the name of the device somewhere in its own, whatever its date, lets every file that starts with
a `v` take precedence, and has midnight for a time that is not late enough.  `described_iff` says for
which directories it opens the playlist of the comment all the same.
-/

namespace IvySync

/-! ### What stands in a name -/

/-- What `strptime` reads of a whole date: the day, the month from zero, the year in its century and
the time. -/
structure Stamp where
  day : ℕ
  month : ℕ
  year : ℕ
  time : Tm
  deriving DecidableEq, Repr

/-- The name of a month, read as its number. -/
def scanMonthNumber (s : Name) : Option (ℕ × Name) :=
  months.zipIdx.findSome? fun m => ((scanWord m.1.1 s).or (scanWord m.1.2 s)).map (m.2, ·)

/-- The date of a name that goes through the whole format `%d%b%y-%H%M`. -/
def parse (name : Name) : Option Stamp := do
  let (day, s) ← scanNumber 1 31 name
  let (month, s) ← scanMonthNumber s
  let (year, s) ← scanNumber 0 99 s
  let s ← scanWord [45] s
  let (hour, s) ← scanNumber 0 23 s
  let (min, _) ← scanNumber 0 59 s
  return ⟨day, month, year, ⟨hour, min⟩⟩

example : parse (bytesOf "12Aug05-0930-video16") = some ⟨12, 7, 5, ⟨9, 30⟩⟩ := by decide +kernel

/-- The number of a month does not change what is left behind its name. -/
theorem scanMonthNumber_snd (s : Name) : (scanMonthNumber s).map Prod.snd = scanMonth s := by
  have hmonths : months = months.zipIdx.map Prod.fst := by rw [List.zipIdx_map_fst]
  rw [scanMonthNumber, scanMonth, List.map_findSome?]
  conv_rhs => rw [hmonths, List.findSome?_map]
  congr 1
  funext m
  simp [Function.comp_def]

/-- A whole date has the time that `get_time` reads, whatever was there before. -/
theorem getTime_of_parse {name : Name} {st : Stamp} (h : parse name = some st) (tt : Tm) :
    getTime name tt = st.time := by
  simp only [parse, Option.bind_eq_bind, Option.bind_eq_some_iff, Prod.exists] at h
  obtain ⟨day, s, hday, month, s', hmonth, year, s'', hyear, s₃, hdash, hour, s₄, hhour, min, s₅,
    hmin, hst⟩ := h
  have hmonth' : scanMonth s = some s' := by rw [← scanMonthNumber_snd, hmonth]; rfl
  obtain rfl := Option.some.inj hst
  simp [getTime, hday, hmonth', hyear, hdash, hhour, hmin]

/-- A whole date does not begin with a letter. -/
theorem head_of_parse {name : Name} {st : Stamp} (h : parse name = some st) :
    ∃ c ∈ name.head?, c.toNat < 118 := by
  simp only [parse, Option.bind_eq_bind, Option.bind_eq_some_iff, Prod.exists] at h
  obtain ⟨day, s, hday, -⟩ := h
  cases name with
  | nil => simp [scanNumber] at hday
  | cons c rest =>
    refine ⟨c, rfl, ?_⟩
    by_contra hc
    have hspace : isspace c = false := by
      simp only [isspace, UInt8.le_iff_toNat_le, ← UInt8.toNat_inj] at hc ⊢
      simp at hc ⊢
      omega
    have hdigit : isdigit c = false := by
      simp only [isdigit, UInt8.le_iff_toNat_le] at hc ⊢
      simp at hc ⊢
      omega
    simp [scanNumber, hspace, hdigit] at hday

/-! ### The playlist of the comment -/

/-- The order of the times of a day. -/
def Tm.key (t : Tm) : ℤ ×ₗ ℤ := toLex (t.hour, t.min)

/-- Times with the same place in the order are the same. -/
theorem Tm.key_injective : Function.Injective Tm.key := by
  rintro ⟨hour, min⟩ ⟨hour', min'⟩ h
  obtain ⟨rfl, rfl⟩ := Prod.mk.inj (toLex.injective h)
  rfl

/-- The time of a date. -/
def Date.time (d : Date) : Tm := ⟨d.hour.val, d.min.val⟩

/-- The day of a date, as `%d%b%y` writes it. -/
def Date.today (d : Date) : Name :=
  twoDigits (d.day + 1) ++ (months.getD d.month ([], [])).2 ++ twoDigits d.year

/-- The entries of a directory, whose names have room in a `struct dirent`. -/
structure Directory where
  entries : Finset Name
  length_le : ∀ name ∈ entries, name.length ≤ 255

/-- The name is that of a playlist for the device, dated today, and its time has come. -/
def Scheduled (now : Date) (deviceNum : ℤ) (name : Name) (t : Tm) : Prop :=
  parse name = some ⟨now.day + 1, now.month, now.year, t⟩ ∧
    (45 :: videoFile deviceNum) <:+ name ∧ t.key ≤ now.time.key

/-- The playlist that the comment of `load` describes: one of the latest that are scheduled, or else
the file of the device. -/
def Described (now : Date) (deviceNum : ℤ) (entries : Finset Name) (name : Name) : Prop :=
  (∃ t, name ∈ entries ∧ Scheduled now deviceNum name t ∧
      ∀ m ∈ entries, ∀ u, Scheduled now deviceNum m u → u.key ≤ t.key) ∨
    name = videoFile deviceNum ∧ ∀ m ∈ entries, ∀ u, ¬ Scheduled now deviceNum m u

/-! ### What the loop makes of the names -/

/-- The name is taken for that of a dated playlist. -/
def Dated (videodev name : Name) : Prop := strstr name videodev = true ∧ name.head? ≠ some 118

/-- The name is taken without a date. -/
def Undated (videodev name : Name) : Prop := strstr name videodev = true ∧ name.head? = some 118

instance (videodev name : Name) : Decidable (Dated videodev name) :=
  inferInstanceAs (Decidable (_ ∧ _))

/-- The files that are taken for dated ones, each with the time that `load` has in `pltime` behind
its name.  What the name does not say is left from the file before it, that is behind it in the
list. -/
def times (videodev : Name) (pltime : Tm) : List Name → List (Name × Tm)
  | [] => []
  | name :: files =>
    let read := times videodev pltime files
    if Dated videodev name then (name, getTime name ((read.map Prod.snd).headD pltime)) :: read
    else read

/-- A file whose time is later than midnight and has come, and no other one such that has a later
time, or the same one and a name behind it in the alphabet. -/
structure Foremost (now : Tm) (read : List (Name × Tm)) (name : Name) (t : Tm) : Prop where
  mem : (name, t) ∈ read
  late : (⟨0, 0⟩ : Tm).key < t.key
  due : t.key ≤ now.key
  first : ∀ m u, (m, u) ∈ read → u.key ≤ now.key →
    u.key < t.key ∨ u.key = t.key ∧ alphasort m name

/-- The files between which the alphabet decides. -/
def InPlay (now : Tm) (videodev : Name) (pltime : Tm) (files : List Name) (name : Name) : Prop :=
  name ∈ files ∧ Undated videodev name ∨
    ∃ t, Foremost now (times videodev pltime files) name t

/-- No file of the directory gets in the way of the one that the comment describes: if some playlist
is scheduled, one of these is foremost, and if none is, no file is in play, or that of the device is
the first one that is. -/
def Undisturbed (now : Date) (deviceNum : ℤ) (pltime : Tm) (entries : Finset Name) : Prop :=
  let files := entries.sort alphasort
  let videodev := videoFile deviceNum
  ((∃ m ∈ entries, ∃ u, Scheduled now deviceNum m u) →
      ∃ name t, Scheduled now deviceNum name t ∧
        Foremost now.time (times videodev pltime files) name t) ∧
    ((∀ m ∈ entries, ∀ u, ¬ Scheduled now deviceNum m u) →
      (∀ name, ¬ InPlay now.time videodev pltime files name) ∨
        InPlay now.time videodev pltime files videodev ∧
          ∀ name, InPlay now.time videodev pltime files name → alphasort videodev name)

section Loop

variable {now pltime : Tm} {videodev name : Name} {files : List Name} {t : Tm} {st : Search}

/-- A file with a time is one of those that are taken for dated, and the time is what its name
says, as far as it does. -/
theorem mem_times (h : (name, t) ∈ times videodev pltime files) :
    name ∈ files ∧ Dated videodev name ∧ ∃ tt, t = getTime name tt := by
  induction files with
  | nil => simp [times] at h
  | cons x files ih =>
    rw [times] at h
    split_ifs at h with hx
    · rcases List.mem_cons.mp h with heq | h
      · obtain ⟨rfl, rfl⟩ := Prod.mk.inj heq
        exact ⟨by simp, hx, _, rfl⟩
      · have hrest := ih h
        exact ⟨by simp [hrest.1], hrest.2⟩
    · have hrest := ih h
      exact ⟨by simp [hrest.1], hrest.2⟩

/-- Every file that is taken for dated has a time. -/
theorem exists_mem_times (hmem : name ∈ files) (hdated : Dated videodev name) :
    ∃ tt, (name, getTime name tt) ∈ times videodev pltime files := by
  induction files with
  | nil => simp at hmem
  | cons x files ih =>
    rw [times]
    rcases List.mem_cons.mp hmem with rfl | hmem
    · rw [if_pos hdated]
      exact ⟨_, List.mem_cons_self⟩
    · obtain ⟨tt, htt⟩ := ih hmem
      refine ⟨tt, ?_⟩
      split_ifs
      · exact List.mem_cons_of_mem _ htt
      · exact htt

/-- No two files are foremost. -/
theorem Foremost.unique {read : List (Name × Tm)} {m : Name} {u : Tm}
    (h : Foremost now read name t) (h' : Foremost now read m u) : name = m ∧ t = u := by
  have hle := h.first m u h'.mem h'.due
  have hge := h'.first name t h.mem h.due
  rcases hle with hlt | ⟨heq, hnames⟩
  · rcases hge with hgt | ⟨heq, -⟩
    · exact absurd hlt hgt.not_gt
    · exact absurd heq hlt.ne'
  · rcases hge with hgt | ⟨-, hnames'⟩
    · exact absurd heq hgt.ne'
    · exact ⟨antisymm hnames' hnames, Tm.key_injective heq.symm⟩

/-- The time of the files that have been read up to now: no file that is due has a later one, and it
is that of the foremost one, if there is any. -/
structure Leading (now : Tm) (read : List (Name × Tm)) (plseltime : Tm) : Prop where
  latest : ∀ m u, (m, u) ∈ read → u.key ≤ now.key → u.key ≤ plseltime.key
  foremost : plseltime = ⟨0, 0⟩ ∨ ∃ name, Foremost now read name plseltime

/-- A later file that is due becomes the foremost one. -/
theorem Leading.foremost_cons {read : List (Name × Tm)} {plseltime : Tm}
    (h : Leading now read plseltime) (hlater : plseltime.key < t.key) (hdue : t.key ≤ now.key) :
    Foremost now ((name, t) :: read) name t := by
  refine ⟨by simp, ?_, hdue, ?_⟩
  · rcases h.foremost with heq | ⟨n, hn⟩
    · exact heq ▸ hlater
    · exact hn.late.trans hlater
  · intro m u hm hu
    rcases List.mem_cons.mp hm with heq | hm
    · obtain ⟨rfl, rfl⟩ := Prod.mk.inj heq
      exact Or.inr ⟨rfl, refl _⟩
    · exact Or.inl ((h.latest m u hm hu).trans_lt hlater)

/-- Any other file leaves the foremost one what it is, if it stands before it in the alphabet. -/
theorem Leading.foremost_cons_iff {read : List (Name × Tm)} {plseltime : Tm}
    (h : Leading now read plseltime) (hnot : ¬ (plseltime.key < t.key ∧ t.key ≤ now.key))
    (hbelow : ∀ m u, (m, u) ∈ read → alphasort name m ∧ m ≠ name) (n : Name) (v : Tm) :
    Foremost now ((name, t) :: read) n v ↔ Foremost now read n v := by
  have hle : t.key ≤ now.key → t.key ≤ plseltime.key := fun hdue =>
    not_lt.mp fun hlt => hnot ⟨hlt, hdue⟩
  constructor
  · intro hv
    have hmem : (n, v) ∈ read := by
      rcases List.mem_cons.mp hv.mem with heq | hmem
      · obtain ⟨rfl, rfl⟩ := Prod.mk.inj heq
        -- the name would be the last one with its time, and stands before one that has it too
        rcases h.foremost with hzero | ⟨m, hm⟩
        · exact absurd (hle hv.due) (hzero ▸ hv.late).not_ge
        · obtain ⟨hbefore, hne⟩ := hbelow m _ hm.mem
          rcases hv.first m _ (by simp [hm.mem]) hm.due with hlt | ⟨-, hnames⟩
          · exact absurd (hle hv.due) hlt.not_ge
          · exact absurd (antisymm hnames hbefore) hne
      · exact hmem
    exact ⟨hmem, hv.late, hv.due, fun m u hm => hv.first m u (by simp [hm])⟩
  · intro hv
    refine ⟨by simp [hv.mem], hv.late, hv.due, ?_⟩
    intro m u hm hu
    rcases List.mem_cons.mp hm with heq | hm
    · obtain ⟨rfl, rfl⟩ := Prod.mk.inj heq
      rcases h.foremost with hzero | ⟨m, hm⟩
      · exact absurd (h.latest n v hv.mem hv.due) (hzero ▸ hv.late).not_ge
      · obtain ⟨-, rfl⟩ := hv.unique hm
        rcases (hle hu).lt_or_eq with hlt | heq
        · exact Or.inl hlt
        · exact Or.inr ⟨heq, (hbelow n _ hv.mem).1⟩
    · exact hv.first m u hm hu

/-- The time of the foremost file is the latest one. -/
theorem Foremost.leading {read : List (Name × Tm)} (h : Foremost now read name t) :
    Leading now read t := by
  refine ⟨fun m u hm hu => ?_, Or.inr ⟨name, h⟩⟩
  rcases h.first m u hm hu with hlt | ⟨heq, -⟩
  · exact hlt.le
  · exact heq.le

/-- Where the foremost file stays, so does its time. -/
theorem Leading.cons {read : List (Name × Tm)} {plseltime : Tm} (h : Leading now read plseltime)
    (hnot : ¬ (plseltime.key < t.key ∧ t.key ≤ now.key))
    (hiff : ∀ n v, Foremost now ((name, t) :: read) n v ↔ Foremost now read n v) :
    Leading now ((name, t) :: read) plseltime := by
  refine ⟨?_, h.foremost.imp_right fun ⟨n, hn⟩ => ⟨n, (hiff n _).mpr hn⟩⟩
  intro m u hm hu
  rcases List.mem_cons.mp hm with heq | hm
  · obtain ⟨rfl, rfl⟩ := Prod.mk.inj heq
    exact not_lt.mp fun hlt => hnot ⟨hlt, hu⟩
  · exact h.latest m u hm hu

/-! ### One file is looked at -/

/-- A file without a date is taken. -/
theorem checking_undated (h : Undated videodev name) (hlength : name.length ≤ 255) :
    checking now videodev name st = { st with thePlaylist := name } := by
  have hcut : snprintf 511 name = name := List.take_of_length_le (by omega)
  rw [checking, h.1, if_neg (by simp), if_pos h.2, hcut]

/-- A dated file is taken if it is later than the one that has been taken, and due. -/
theorem checking_dated (h : Dated videodev name) (hlength : name.length ≤ 255)
    (ht : getTime name st.pltime = t) :
    checking now videodev name st =
      if st.plseltime.key < t.key ∧ t.key ≤ now.key then ⟨name, t, t⟩
      else { st with pltime := t } := by
  have hcut : snprintf 511 name = name := List.take_of_length_le (by omega)
  rw [checking, h.1, if_neg (by simp), if_neg h.2, ht, hcut]
  simp only [Tm.key, Prod.Lex.toLex_lt_toLex, Prod.Lex.toLex_le_toLex]
  split_ifs <;> first | rfl | omega

/-- What the loop knows when it has looked at some files. -/
structure Chosen (now : Tm) (videodev : Name) (pltime : Tm) (files : List Name) (st : Search) :
    Prop where
  read : st.pltime = ((times videodev pltime files).map Prod.snd).headD pltime
  leading : Leading now (times videodev pltime files) st.plseltime
  playlist : (st.thePlaylist = videodev ∧ ∀ n, ¬ InPlay now videodev pltime files n) ∨
    InPlay now videodev pltime files st.thePlaylist ∧
      ∀ n, InPlay now videodev pltime files n → alphasort st.thePlaylist n

/-- A file that is in play is there. -/
theorem InPlay.mem (h : InPlay now videodev pltime files name) : name ∈ files := by
  rcases h with h | ⟨t, ht⟩
  · exact h.1
  · exact (mem_times ht.mem).1

/-- Before the loop. -/
theorem chosen_nil : Chosen now videodev pltime [] ⟨videodev, ⟨0, 0⟩, pltime⟩ := by
  refine ⟨rfl, ⟨by simp [times], Or.inl rfl⟩, Or.inl ⟨rfl, fun n hn => ?_⟩⟩
  exact absurd hn.mem (by simp)

/-- A file that is passed over changes nothing. -/
theorem Chosen.pass (h : Chosen now videodev pltime files st)
    (hfound : strstr name videodev = false) : Chosen now videodev pltime (name :: files) st := by
  have htimes : times videodev pltime (name :: files) = times videodev pltime files := by
    rw [times, if_neg (by simp [Dated, hfound])]
  have hplay : ∀ n, InPlay now videodev pltime (name :: files) n ↔
      InPlay now videodev pltime files n := by
    intro n
    rw [InPlay, InPlay, htimes, List.mem_cons]
    refine or_congr_left (and_congr_left fun hn => or_iff_right ?_)
    rintro rfl
    exact absurd hn.1 (by simp [hfound])
  refine ⟨htimes ▸ h.read, htimes ▸ h.leading, ?_⟩
  simpa only [hplay] using h.playlist

/-- Looking at one file keeps what the loop knows, if it stands before the other ones in the
alphabet. -/
theorem Chosen.checking (h : Chosen now videodev pltime files st) (hlength : name.length ≤ 255)
    (hbelow : ∀ m ∈ files, alphasort name m ∧ m ≠ name) :
    Chosen now videodev pltime (name :: files) (checking now videodev name st) := by
  have hleast : ∀ n, InPlay now videodev pltime (name :: files) n → alphasort name n := by
    intro n hn
    rcases List.mem_cons.mp hn.mem with rfl | hmem
    · exact refl _
    · exact (hbelow n hmem).1
  by_cases hfound : strstr name videodev = true
  · by_cases hv : name.head? = some 118
    · -- the file has no date
      have htimes : times videodev pltime (name :: files) = times videodev pltime files := by
        rw [times, if_neg fun hdated => hdated.2 hv]
      rw [checking_undated ⟨hfound, hv⟩ hlength]
      exact ⟨htimes ▸ h.read, htimes ▸ h.leading, Or.inr ⟨Or.inl ⟨by simp, hfound, hv⟩, hleast⟩⟩
    · -- the file has one, and a time is read from it
      obtain ⟨t, ht⟩ : ∃ t, getTime name st.pltime = t := ⟨_, rfl⟩
      have htimes : times videodev pltime (name :: files) =
          (name, t) :: times videodev pltime files := by
        rw [times, if_pos ⟨hfound, hv⟩, ← h.read, ht]
      rw [checking_dated ⟨hfound, hv⟩ hlength ht]
      split_ifs with hlater
      · have hforemost : Foremost now ((name, t) :: times videodev pltime files) name t :=
          h.leading.foremost_cons hlater.1 hlater.2
        rw [← htimes] at hforemost
        exact ⟨by rw [htimes]; rfl, hforemost.leading, Or.inr ⟨Or.inr ⟨t, hforemost⟩, hleast⟩⟩
      · have hiff := h.leading.foremost_cons_iff hlater fun m u hm => hbelow m (mem_times hm).1
        have hleading := h.leading.cons hlater hiff
        have hplay : ∀ n, InPlay now videodev pltime (name :: files) n ↔
            InPlay now videodev pltime files n := by
          intro n
          rw [InPlay, InPlay, htimes, List.mem_cons]
          refine or_congr (and_congr_left fun hn => or_iff_right ?_)
            (exists_congr fun v => hiff n v)
          rintro rfl
          exact hv hn.2
        rw [← htimes] at hleading
        exact ⟨by rw [htimes]; rfl, hleading, by simpa only [hplay] using h.playlist⟩
  · have hfound : strstr name videodev = false := by simpa using hfound
    have hskip : IvySync.checking now videodev name st = st := by
      rw [IvySync.checking, hfound]
      rfl
    rw [hskip]
    exact h.pass hfound

/-- What the loop knows at its end. -/
theorem chosen_foldr (hsorted : files.Pairwise alphasort) (hnodup : files.Nodup)
    (hlength : ∀ name ∈ files, name.length ≤ 255) :
    Chosen now videodev pltime files
      (files.foldr (IvySync.checking now videodev) ⟨videodev, ⟨0, 0⟩, pltime⟩) := by
  induction files with
  | nil => exact chosen_nil
  | cons name files ih =>
    obtain ⟨hbefore, hsorted⟩ := List.pairwise_cons.mp hsorted
    obtain ⟨hnew, hnodup⟩ := List.nodup_cons.mp hnodup
    have hrest := ih hsorted hnodup fun m hm => hlength m (by simp [hm])
    rw [List.foldr_cons]
    exact hrest.checking (hlength name (by simp)) fun m hm =>
      ⟨hbefore m hm, fun heq => hnew (heq ▸ hm)⟩

end Loop

/-! ### Whether it is the playlist of the comment -/

section Described

variable {now : Date} {deviceNum : ℤ} {pltime : Tm} {name : Name} {t : Tm}

variable (now deviceNum pltime) in
/-- What the loop knows when it has looked at the whole directory. -/
theorem chosen_sort (dir : Directory) :
    Chosen now.time (videoFile deviceNum) pltime (dir.entries.sort alphasort)
      ((dir.entries.sort alphasort).foldr (checking now.time (videoFile deviceNum))
        ⟨videoFile deviceNum, ⟨0, 0⟩, pltime⟩) := by
  refine chosen_foldr (dir.entries.pairwise_sort alphasort) (dir.entries.sort_nodup alphasort) ?_
  intro n hn
  exact dir.length_le n ((Finset.mem_sort alphasort).mp hn)

variable (now deviceNum pltime) in
/-- The file that is chosen is the first one of those in play, or that of the device if there are
none. -/
theorem choose_spec (dir : Directory) :
    (choose deviceNum now.time now.today pltime dir.entries = videoFile deviceNum ∧
      ∀ n, ¬ InPlay now.time (videoFile deviceNum) pltime (dir.entries.sort alphasort) n) ∨
    InPlay now.time (videoFile deviceNum) pltime (dir.entries.sort alphasort)
        (choose deviceNum now.time now.today pltime dir.entries) ∧
      ∀ n, InPlay now.time (videoFile deviceNum) pltime (dir.entries.sort alphasort) n →
        alphasort (choose deviceNum now.time now.today pltime dir.entries) n := by
  rw [choose_eq_foldr]
  exact (chosen_sort now deviceNum pltime dir).playlist

/-- The name of the file of a device starts with a `v`. -/
theorem head?_videoFile : (videoFile deviceNum).head? = some 118 := rfl

/-- The name of a scheduled playlist is taken for a dated one. -/
theorem Scheduled.dated (h : Scheduled now deviceNum name t) :
    Dated (videoFile deviceNum) name := by
  obtain ⟨c, hc, hlt⟩ := head_of_parse h.1
  refine ⟨?_, ?_⟩
  · rw [strstr, decide_eq_true_eq]
    exact (List.suffix_cons _ _).isInfix.trans h.2.1.isInfix
  · rw [Option.mem_def.mp hc]
    rintro heq
    obtain rfl := Option.some.inj heq
    exact absurd hlt (by decide)

/-- The alphabet has every scheduled playlist before the files without a date. -/
theorem Scheduled.not_alphasort (h : Scheduled now deviceNum name t) {v : Name}
    (hv : v.head? = some 118) : ¬ alphasort v name := by
  obtain ⟨c, hc, hlt⟩ := head_of_parse h.1
  obtain ⟨vs, rfl⟩ := List.head?_eq_some_iff.mp hv
  obtain ⟨cs, rfl⟩ := List.head?_eq_some_iff.mp hc
  intro hle
  have hlt : List.map UInt8.toNat (c :: cs) < List.map UInt8.toNat (118 :: vs) :=
    List.Lex.rel hlt
  exact absurd hle hlt.not_ge

/-- A scheduled playlist has its own time for `load`. -/
theorem Scheduled.mem_times {files : List Name} (h : Scheduled now deviceNum name t)
    (hmem : name ∈ files) :
    (name, t) ∈ times (videoFile deviceNum) pltime files := by
  obtain ⟨tt, htt⟩ : ∃ tt, (name, getTime name tt) ∈ times (videoFile deviceNum) pltime files :=
    exists_mem_times hmem h.dated
  rwa [getTime_of_parse h.1] at htt

/-- Where some file is due after midnight there is a foremost one. -/
theorem exists_foremost (dir : Directory) {m : Name} {u : Tm}
    (hmem : (m, u) ∈ times (videoFile deviceNum) pltime (dir.entries.sort alphasort))
    (hlate : (⟨0, 0⟩ : Tm).key < u.key) (hdue : u.key ≤ now.time.key) :
    ∃ n t, Foremost now.time
      (times (videoFile deviceNum) pltime (dir.entries.sort alphasort)) n t := by
  have hleading := (chosen_sort now deviceNum pltime dir).leading
  rcases hleading.foremost with hzero | ⟨n, hn⟩
  · exact absurd (hleading.latest m u hmem hdue) (hzero ▸ hlate).not_ge
  · exact ⟨n, _, hn⟩

/-- What is foremost and scheduled is described by the comment. -/
theorem Foremost.described {files : List Name} {entries : Finset Name}
    (h : Foremost now.time (times (videoFile deviceNum) pltime files) name t)
    (hscheduled : Scheduled now deviceNum name t) (hfiles : ∀ m, m ∈ files ↔ m ∈ entries) :
    Described now deviceNum entries name := by
  refine Or.inl ⟨t, (hfiles name).mp (mem_times h.mem).1, hscheduled, ?_⟩
  intro m hm u hu
  rcases h.first m u (hu.mem_times ((hfiles m).mpr hm)) hu.2.2 with hlt | ⟨heq, -⟩
  · exact hlt.le
  · exact heq.le

/-- `load` opens the playlist that its comment describes exactly if no file of the directory gets in
the way of it. -/
theorem described_iff (now : Date) (deviceNum : ℤ) (pltime : Tm) (dir : Directory) :
    Described now deviceNum dir.entries
        (choose deviceNum now.time now.today pltime dir.entries) ↔
      Undisturbed now deviceNum pltime dir.entries := by
  have hfiles : ∀ m, m ∈ dir.entries.sort alphasort ↔ m ∈ dir.entries := fun m =>
    Finset.mem_sort alphasort
  have hspec := choose_spec now deviceNum pltime dir
  generalize choose deviceNum now.time now.today pltime dir.entries = chosen at hspec ⊢
  constructor
  · intro h
    refine ⟨?_, ?_⟩
    · rintro ⟨m, hm, u, hu⟩
      rcases h with ⟨t, hmem, hscheduled, -⟩ | ⟨-, hnone⟩
      · -- the chosen file has a date, so it is in play as the foremost one
        rcases hspec with ⟨rfl, -⟩ | ⟨⟨-, hundated⟩ | ⟨t', ht'⟩, -⟩
        · exact absurd head?_videoFile hscheduled.dated.2
        · exact absurd hundated.2 hscheduled.dated.2
        · obtain ⟨-, -, tt, htt⟩ := mem_times ht'.mem
          obtain rfl : t' = t := htt.trans (getTime_of_parse hscheduled.1 tt)
          exact ⟨chosen, t', hscheduled, ht'⟩
      · exact absurd hu (hnone m hm u)
    · intro hnone
      rcases h with ⟨t, hmem, hscheduled, -⟩ | ⟨rfl, -⟩
      · exact absurd hscheduled (hnone chosen hmem t)
      · exact hspec.imp_left And.right
  · rintro ⟨hsome, hnone⟩
    by_cases hany : ∃ m ∈ dir.entries, ∃ u, Scheduled now deviceNum m u
    · obtain ⟨name, t, hscheduled, hforemost⟩ := hsome hany
      rcases hspec with ⟨-, hempty⟩ | ⟨hplay, hleast⟩
      · exact absurd (Or.inr ⟨t, hforemost⟩) (hempty name)
      · have hbefore := hleast name (Or.inr ⟨t, hforemost⟩)
        rcases hplay with ⟨-, hundated⟩ | ⟨t', ht'⟩
        · exact absurd hbefore (hscheduled.not_alphasort hundated.2)
        · obtain ⟨rfl, rfl⟩ := hforemost.unique ht'
          exact hforemost.described hscheduled hfiles
    · have hnone' : ∀ m ∈ dir.entries, ∀ u, ¬ Scheduled now deviceNum m u :=
        fun m hm u hu => hany ⟨m, hm, u, hu⟩
      refine Or.inr ⟨?_, hnone'⟩
      rcases hspec with ⟨heq, hempty⟩ | ⟨hplay, hleast⟩
      · exact heq
      · rcases hnone hnone' with hempty | ⟨hvideo, hfirst⟩
        · exact absurd hplay (hempty chosen)
        · exact antisymm (hleast _ hvideo) (hfirst chosen hplay)

/-- Nothing gets in the way where all files with the name of the device in theirs are named as they
should be: its own one, and playlists of today that start after midnight. -/
theorem undisturbed_of_ordinary (dir : Directory)
    (h : ∀ name ∈ dir.entries, strstr name (videoFile deviceNum) = true →
      name = videoFile deviceNum ∨ ∃ t, parse name = some ⟨now.day + 1, now.month, now.year, t⟩ ∧
        (45 :: videoFile deviceNum) <:+ name ∧ (⟨0, 0⟩ : Tm).key < t.key) :
    Undisturbed now deviceNum pltime dir.entries := by
  have hscheduled : ∀ n t, Foremost now.time
      (times (videoFile deviceNum) pltime (dir.entries.sort alphasort)) n t →
        Scheduled now deviceNum n t := by
    intro n t hn
    obtain ⟨hmem, hdated, tt, rfl⟩ := mem_times hn.mem
    rcases h n ((Finset.mem_sort alphasort).mp hmem) hdated.1 with rfl | ⟨t, hparse, hsuffix, -⟩
    · exact absurd head?_videoFile hdated.2
    · have hdue := hn.due
      rw [getTime_of_parse hparse] at hdue ⊢
      exact ⟨hparse, hsuffix, hdue⟩
  refine ⟨?_, ?_⟩
  · rintro ⟨m, hm, u, hu⟩
    have hlate : (⟨0, 0⟩ : Tm).key < u.key := by
      rcases h m hm hu.dated.1 with rfl | ⟨t, hparse, -, hlate⟩
      · exact absurd head?_videoFile hu.dated.2
      · obtain rfl : t = u := congrArg Stamp.time (Option.some.inj (hparse.symm.trans hu.1))
        exact hlate
    have hmem : (m, u) ∈ times (videoFile deviceNum) pltime (dir.entries.sort alphasort) :=
      hu.mem_times ((Finset.mem_sort alphasort).mpr hm)
    obtain ⟨n, t, hn⟩ := exists_foremost dir hmem hlate hu.2.2
    exact ⟨n, t, hscheduled n t hn, hn⟩
  · intro hnone
    have hplay : ∀ n, InPlay now.time (videoFile deviceNum) pltime (dir.entries.sort alphasort) n →
        n = videoFile deviceNum := by
      rintro n (⟨hmem, hundated⟩ | ⟨t, ht⟩)
      · rcases h n ((Finset.mem_sort alphasort).mp hmem) hundated.1 with heq | ⟨t, hparse, -⟩
        · exact heq
        · obtain ⟨c, hc, hlt⟩ := head_of_parse hparse
          rw [hundated.2] at hc
          exact absurd hlt (by rw [← Option.some.inj hc]; decide)
      · have hmem := (Finset.mem_sort alphasort).mp (mem_times ht.mem).1
        exact absurd (hscheduled n t ht) (hnone n hmem t)
    by_cases hvideo : InPlay now.time (videoFile deviceNum) pltime (dir.entries.sort alphasort)
        (videoFile deviceNum)
    · exact Or.inr ⟨hvideo, fun n hn => hplay n hn ▸ refl _⟩
    · exact Or.inl fun n hn => hvideo (hplay n hn ▸ hn)

/-- A playlist of the first of January is chosen on the second one. -/
theorem not_described : ¬ ∀ (now : Date) (deviceNum : ℤ) (pltime : Tm) (dir : Directory),
    Described now deviceNum dir.entries
      (choose deviceNum now.time now.today pltime dir.entries) := by
  intro h
  have hdescribed := h ⟨1, 0, 0, 12, 0⟩ 16 ⟨0, 0⟩ ⟨{eleven 16}, by simp; decide +kernel⟩
  have hchosen : choose 16 ⟨12, 0⟩ (⟨1, 0, 0, 12, 0⟩ : Date).today ⟨0, 0⟩ {eleven 16} = eleven 16 :=
    choose_eleven (by decide +kernel)
  have hparse : parse (eleven 16) = some ⟨1, 0, 0, ⟨11, 0⟩⟩ := by decide +kernel
  change Described _ _ {eleven 16} (choose 16 ⟨12, 0⟩ _ _ _) at hdescribed
  rw [hchosen] at hdescribed
  rcases hdescribed with ⟨t, -, hscheduled, -⟩ | ⟨heq, -⟩
  · have hday := congrArg Stamp.day (Option.some.inj (hparse.symm.trans hscheduled.1))
    exact absurd hday (show ¬ 1 = 2 by decide)
  · exact absurd (congrArg List.head? heq) (by decide +kernel)

end Described

end IvySync

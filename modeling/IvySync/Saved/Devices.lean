import IvySync.Saved.Roundtrip

/-!
# The playlists of different devices

`init` takes the last two characters of the path of a device for its number, and `load` takes every
file that has `video` and this number somewhere in its name for a file of the device.  `Separate`
says that the playlists of two devices do not get in each other's way; `separate_iff` says for which
devices this is so.
-/

namespace IvySync

open Text

/-! ### Numbers and their digits -/

/-- A digit. -/
def digit (d : ℕ) : UInt8 := UInt8.ofNat (48 + d)

/-- A number below ten. -/
theorem decimal_of_lt {n : ℕ} (hn : n < 10) : decimal n = [digit n] := by
  rw [decimal, Nat.toDigits_of_lt_base hn, List.map_singleton, Nat.toNat_digitChar_of_lt_ten hn]
  rfl

/-- The last digit of a number from ten on. -/
theorem decimal_of_ge {n : ℕ} (hn : 10 ≤ n) : decimal n = decimal (n / 10) ++ [digit (n % 10)] := by
  have hlast : n % 10 < 10 := Nat.mod_lt n (by omega)
  rw [decimal, Nat.toDigits_of_base_le (by omega) hn, List.map_append, List.map_singleton,
    Nat.toNat_digitChar_of_lt_ten hlast]
  rfl

/-- A digit is one, and what it stands for. -/
theorem isdigit_digit {d : ℕ} (hd : d < 10) :
    isdigit (digit d) = true ∧ (digit d).toNat - 48 = d ∧ digit d ≠ 100 := by
  revert d
  decide

/-- The decimal representation is made of digits. -/
theorem isdigit_of_mem_decimal {n : ℕ} {c : UInt8} (hc : c ∈ decimal n) :
    isdigit c = true ∧ c ≠ 100 := by
  induction n using Nat.strong_induction_on with
  | _ n ih =>
    rcases Nat.lt_or_ge n 10 with hn | hn
    · rw [decimal_of_lt hn, List.mem_singleton] at hc
      have hd := isdigit_digit hn
      exact hc ▸ ⟨hd.1, hd.2.2⟩
    · rw [decimal_of_ge hn, List.mem_append, List.mem_singleton] at hc
      rcases hc with hc | rfl
      · exact ih (n / 10) (by omega) hc
      · have hd := isdigit_digit (Nat.mod_lt n (by omega : 0 < 10))
        exact ⟨hd.1, hd.2.2⟩

/-- `atoi` reads back what `%u` has written. -/
theorem leadingNumber_decimal (n : ℕ) : leadingNumber (decimal n) = n := by
  have htake : (decimal n).takeWhile isdigit = decimal n :=
    List.takeWhile_eq_self_iff.mpr fun c hc => (isdigit_of_mem_decimal hc).1
  rw [leadingNumber, htake]
  clear htake
  induction n using Nat.strong_induction_on with
  | _ n ih =>
    rcases Nat.lt_or_ge n 10 with hn | hn
    · rw [decimal_of_lt hn, List.foldl_cons, List.foldl_nil, (isdigit_digit hn).2.1, Nat.zero_mul,
        Nat.zero_add]
    · rw [decimal_of_ge hn, List.foldl_append, ih (n / 10) (by omega), List.foldl_cons,
        List.foldl_nil, (isdigit_digit (Nat.mod_lt n (by omega : 0 < 10))).2.1]
      omega

/-- Different numbers are written differently. -/
theorem decimal_injective : Function.Injective decimal := by
  intro n m h
  rw [← leadingNumber_decimal n, h, leadingNumber_decimal]

/-- A number of two digits. -/
theorem length_decimal {n : ℕ} (h1 : 10 ≤ n) (h2 : n < 100) : (decimal n).length = 2 := by
  rw [decimal_of_ge h1, decimal_of_lt (by omega)]
  rfl

/-! ### The number of a device -/

/-- The path of a device. -/
def devicePath (N : ℕ) : Name := bytesOf "/dev/video" ++ decimal N

/-- The number that `init` makes of a device: its last two digits, and zero if it has one only. -/
def lastTwo (N : ℕ) : ℕ := if N < 10 then 0 else N % 100

/-- The last two characters of the path are the last two digits, or a letter and a digit. -/
theorem number_devicePath (N : ℕ) : Channel.number (devicePath N) = lastTwo N := by
  rcases Nat.lt_or_ge N 10 with hN | hN
  · rw [Channel.number, devicePath, decimal_of_lt hN, lastTwo, if_pos hN]
    rfl
  · have htens : N / 10 % 10 < 10 := Nat.mod_lt _ (by omega)
    have hones : N % 10 < 10 := Nat.mod_lt _ (by omega)
    obtain ⟨front, hfront⟩ : ∃ front,
        decimal N = front ++ [digit (N / 10 % 10), digit (N % 10)] := by
      rcases Nat.lt_or_ge (N / 10) 10 with hsmall | hbig
      · exact ⟨[], by rw [decimal_of_ge hN, decimal_of_lt hsmall, Nat.mod_eq_of_lt hsmall]; rfl⟩
      · exact ⟨decimal (N / 10 / 10), by rw [decimal_of_ge hN, decimal_of_ge hbig]; simp⟩
    have hatoi : ∀ a < 10, ∀ b < 10, atoi [digit a, digit b] = (a * 10 + b : ℕ) := by
      decide +kernel
    have hdrop : (devicePath N).drop ((devicePath N).length - 2) =
        [digit (N / 10 % 10), digit (N % 10)] := by
      rw [devicePath, hfront, ← List.append_assoc]
      refine List.drop_left' ?_
      simp only [List.length_append, List.length_cons, List.length_nil]
      omega
    rw [Channel.number, hdrop, hatoi _ htens _ hones, lastTwo, if_neg (by omega)]
    omega

/-- The file of a device. -/
theorem videoFile_number (N : ℕ) :
    videoFile (Channel.number (devicePath N)) = bytesOf "video" ++ decimal (lastTwo N) := by
  have hlt : lastTwo N < 100 := by
    unfold lastTwo
    split_ifs <;> omega
  have hmod : ((lastTwo N : ℤ) % 2 ^ 32).toNat = lastTwo N := by omega
  rw [videoFile, number_devicePath, printU, hmod]

/-! ### The files of a device -/

/-- A date in the name of a playlist. -/
structure Date where
  /-- The day of the month, from zero. -/
  day : Fin 31
  month : Fin 12
  year : Fin 100
  hour : Fin 24
  min : Fin 60

/-- A number of two digits. -/
def twoDigits (n : ℕ) : Name := [digit (n / 10), digit (n % 10)]

/-- The date as `%d%b%y-%H%M` writes it. -/
def Date.text (d : Date) : Name :=
  twoDigits (d.day + 1) ++ (months.getD d.month ([], [])).2 ++ twoDigits d.year ++ [45] ++
    twoDigits d.hour ++ twoDigits d.min

/-- The files that are named for a device: its own one, and dated ones. -/
def NamedFor (M : ℕ) (name : Name) : Prop :=
  name = bytesOf "video" ++ decimal M ∨
    ∃ d : Date, name = d.text ++ bytesOf "-video" ++ decimal M

/-- No date has the letter `d` in it. -/
theorem not_mem_date (d : Date) : 100 ∉ d.text := by
  have hdigits : ∀ n < 100, 100 ∉ twoDigits n := by decide +kernel
  have hmonths : ∀ m : Fin 12, 100 ∉ (months.getD m ([], [])).2 := by decide +kernel
  have hdash : (100 : UInt8) ∉ [(45 : UInt8)] := by decide
  simp only [Date.text, List.mem_append, not_or]
  exact ⟨⟨⟨⟨⟨hdigits _ (by omega), hmonths _⟩, hdigits _ (by omega)⟩, hdash⟩,
    hdigits _ (by omega)⟩, hdigits _ (by omega)⟩

/-- The name of the file of one device is found in that of another one if its number is found at the
front of the other number. -/
theorem strstr_video_iff (before : Name) {n M : ℕ} (hbefore : 100 ∉ before) :
    strstr (before ++ bytesOf "video" ++ decimal M) (bytesOf "video" ++ decimal n) = true ↔
      decimal n <+: decimal M := by
  have hvideo : bytesOf "video" = [118, 105] ++ 100 :: [101, 111] := rfl
  have ha : 100 ∉ before ++ [118, 105] := by
    rw [List.mem_append, not_or]
    exact ⟨hbefore, by decide⟩
  have hb : 100 ∉ [101, 111] ++ decimal M := by
    rw [List.mem_append, not_or]
    exact ⟨by decide, fun h => (isdigit_of_mem_decimal h).2 rfl⟩
  have hunique := infix_iff_of_unique (u := [118, 105]) (w := [101, 111] ++ decimal n) ha hb
  rw [strstr, decide_eq_true_eq, hvideo]
  rw [List.prefix_append_right_inj] at hunique
  simpa using hunique

/-- It is the same in the names of dated playlists. -/
theorem strstr_dated_iff (d : Date) {n M : ℕ} :
    strstr (d.text ++ bytesOf "-video" ++ decimal M) (bytesOf "video" ++ decimal n) = true ↔
      decimal n <+: decimal M := by
  have hdash : bytesOf "-video" = [45] ++ bytesOf "video" := rfl
  rw [hdash, ← List.append_assoc]
  refine strstr_video_iff (d.text ++ [45]) ?_
  rw [List.mem_append, not_or]
  exact ⟨not_mem_date d, by decide⟩

/-- In the name of a file that is named for a device the number behind `video` is that of the
device. -/
theorem strstr_of_namedFor {n M : ℕ} {name : Name} (h : NamedFor M name)
    (hfound : strstr name (bytesOf "video" ++ decimal n) = true) : decimal n <+: decimal M := by
  rcases h with rfl | ⟨d, rfl⟩
  · exact (strstr_video_iff [] (by simp)).mp hfound
  · exact (strstr_dated_iff d).mp hfound

/-! ### The choice of a playlist -/

/-- A file that does not have the name of the decoder in its own is passed over. -/
theorem foldr_checking_filter (now : Tm) (videodev : Name) (files : List Name) (st : Search) :
    files.foldr (checking now videodev) st =
      (files.filter (strstr · videodev)).foldr (checking now videodev) st := by
  rw [List.foldr_filter]
  congr 1
  funext name st
  cases hfound : strstr name videodev with
  | true => rw [if_pos rfl]
  | false => simp [checking, hfound]

/-- The selector takes every file that has the name of a decoder in its own. -/
theorem playlistSelector_of_strstr {deviceNum : ℤ} {today name : Name}
    (h : strstr name (videoFile deviceNum) = true) : playlistSelector today name = true := by
  have hvideo : strstr name (bytesOf "video") = true := by
    rw [strstr, decide_eq_true_eq] at h ⊢
    exact (List.prefix_append _ _).isInfix.trans h
  simp [playlistSelector, hvideo]

/-- The choice depends on all entries of the directory in the same way, and not on the date. -/
theorem choose_eq_foldr {deviceNum : ℤ} {now pltime : Tm} {today : Name} {entries : Finset Name} :
    choose deviceNum now today pltime entries =
      ((entries.sort alphasort).foldr (checking now (videoFile deviceNum))
        ⟨videoFile deviceNum, ⟨0, 0⟩, pltime⟩).thePlaylist := by
  have hfiles : (scandir today entries).filter (strstr · (videoFile deviceNum)) =
      (entries.sort alphasort).filter (strstr · (videoFile deviceNum)) := by
    rw [scandir, ← sort_filter, List.filter_filter]
    refine List.filter_congr fun name _ => ?_
    cases hfound : strstr name (videoFile deviceNum) with
    | true => rw [playlistSelector_of_strstr hfound, Bool.and_true]
    | false => rfl
  unfold choose
  dsimp only
  rw [Linklist.snprintf_videoFile (by omega), Linklist.snprintf_videoFile (by omega),
    foldr_checking_filter, hfiles, ← foldr_checking_filter]

/-- `load` looks only at the files that have the name of the decoder in theirs. -/
theorem choose_congr {deviceNum : ℤ} {now pltime : Tm} {today : Name} {D D' : Finset Name}
    (h : ∀ name, strstr name (videoFile deviceNum) = true → (name ∈ D ↔ name ∈ D')) :
    choose deviceNum now today pltime D = choose deviceNum now today pltime D' := by
  have hset : D.filter (fun name => strstr name (videoFile deviceNum) = true) =
      D'.filter (fun name => strstr name (videoFile deviceNum) = true) := by
    ext name
    simp only [Finset.mem_filter]
    exact and_congr_left fun hfound => h name hfound
  rw [choose_eq_foldr, choose_eq_foldr, foldr_checking_filter, sort_filter, hset, ← sort_filter,
    ← foldr_checking_filter]

/-- A dated playlist of eleven o'clock. -/
def eleven (M : ℕ) : Name :=
  (⟨0, 0, 0, 11, 0⟩ : Date).text ++ bytesOf "-video" ++ decimal M

/-- At noon it is chosen on every day, by every decoder whose name is found in its own. -/
theorem choose_eleven {deviceNum : ℤ} {M : ℕ} {pltime : Tm} {today : Name}
    (hfound : strstr (eleven M) (videoFile deviceNum) = true) :
    choose deviceNum ⟨12, 0⟩ today pltime {eleven M} = snprintf 511 (eleven M) := by
  have htime : ∀ tt, getTime (eleven M) tt = ⟨11, 0⟩ := fun _ => rfl
  have hhead : (eleven M).head? = some 48 := rfl
  rw [choose_eq_foldr, Finset.sort_singleton]
  simp [checking, hfound, hhead, htime]

/-- The playlists of the devices `N` and `M` are saved to different files, and the files named for
`M` do not change the playlist that `load` chooses for `N`. -/
def Separate (home : Name) (N M : ℕ) : Prop :=
  ∀ (fd fd' : ℤ) (d d' : Decoder) (c c' : Channel),
    Channel.init (devicePath N) fd d = some c → Channel.init (devicePath M) fd' d' = some c' →
      playlistPath home (videoFile c.deviceNum) ≠ playlistPath home (videoFile c'.deviceNum) ∧
        ∀ (now pltime : Tm) (today : Name) (D D' : Finset Name),
          (∀ name, ¬ NamedFor M name → (name ∈ D ↔ name ∈ D')) →
            choose c.deviceNum now today pltime D = choose c.deviceNum now today pltime D'

/-- The paths of two files with numbers differ in what the buffer has room for. -/
theorem playlistPath_eq_iff (home : Name) (n m : ℕ) :
    playlistPath home (bytesOf "video" ++ decimal n) =
        playlistPath home (bytesOf "video" ++ decimal m) ↔
      (decimal n).take (495 - home.length) = (decimal m).take (495 - home.length) := by
  have hdir : (bytesOf "/.ivysync/").length = 10 := rfl
  have hvideo : (bytesOf "video").length = 5 := rfl
  have hpath : ∀ k, playlistPath home (bytesOf "video" ++ decimal k) =
      (home ++ bytesOf "/.ivysync/" ++ bytesOf "video").take 510 ++
        (decimal k).take (495 - home.length) := by
    intro k
    rw [playlistPath, snprintf, ← List.append_assoc, List.take_append]
    congr 2
    simp only [List.length_append, hdir, hvideo]
    omega
  rw [hpath, hpath, List.append_right_inj]

/-- `init` sets the number of the device that it has opened. -/
theorem deviceNum_of_init {N : ℕ} {fd : ℤ} {d : Decoder} {c : Channel}
    (h : Channel.init (devicePath N) fd d = some c) :
    c.deviceNum = Channel.number (devicePath N) := by
  unfold Channel.init at h
  split_ifs at h <;> exact congrArg Channel.deviceNum (Option.some.inj h).symm

/-- Where the paths differ and the number of the first device is not found at the front of that of
the second one, their playlists are separate. -/
theorem separate_of {home : Name} {N M : ℕ}
    (hpath : (decimal (lastTwo N)).take (495 - home.length) ≠
      (decimal (lastTwo M)).take (495 - home.length))
    (hfront : ¬ decimal (lastTwo N) <+: decimal M) : Separate home N M := by
  intro fd fd' d d' c c' hc hc'
  rw [deviceNum_of_init hc, deviceNum_of_init hc', videoFile_number, videoFile_number, Ne,
    playlistPath_eq_iff]
  refine ⟨hpath, ?_⟩
  intro now pltime today D D' hother
  refine choose_congr fun name hfound => ?_
  refine hother name fun hnamed => hfront ?_
  rw [videoFile_number] at hfound
  exact strstr_of_namedFor hnamed hfound

/-- Devices with two digits, as the program expects them, do not get in each other's way. -/
theorem separate_of_two_digits {home : Name} {N M : ℕ} (hhome : home.length ≤ 493)
    (hN : 10 ≤ N ∧ N < 100) (hM : 10 ≤ M ∧ M < 100) (hne : N ≠ M) : Separate home N M := by
  have hlast : ∀ {K}, 10 ≤ K ∧ K < 100 → lastTwo K = K := by
    intro K hK
    rw [lastTwo, if_neg (by omega), Nat.mod_eq_of_lt hK.2]
  have hlengthN := length_decimal hN.1 hN.2
  have hlengthM := length_decimal hM.1 hM.2
  refine separate_of ?_ ?_
  · rw [hlast hN, hlast hM, List.take_of_length_le (by omega), List.take_of_length_le (by omega)]
    exact fun h => hne (decimal_injective h)
  · rw [hlast hN]
    exact fun h => hne (decimal_injective (h.eq_of_length (by omega)))

/-- The playlists of two devices do not get in each other's way exactly if the numbers that `init`
makes of them differ, as far as there is room for them in the path, and the first of these is not
found at the front of the number of the second device. -/
theorem separate_iff (home : Name) (N M : ℕ) :
    Separate home N M ↔
      (decimal (lastTwo N)).take (495 - home.length) ≠
          (decimal (lastTwo M)).take (495 - home.length) ∧
        ¬ decimal (lastTwo N) <+: decimal M := by
  constructor
  · intro h
    let d : Decoder := Decoder.new 0 true .single []
    obtain ⟨hpath, hchoose⟩ := h 0 0 d d _ _ rfl rfl
    dsimp only at hpath hchoose
    rw [videoFile_number, videoFile_number, Ne, playlistPath_eq_iff] at hpath
    refine ⟨hpath, ?_⟩
    intro hfront
    have hfound : strstr (eleven M) (videoFile (Channel.number (devicePath N))) = true := by
      rw [videoFile_number]
      exact (strstr_dated_iff _).mpr hfront
    have hsame := hchoose ⟨12, 0⟩ ⟨0, 0⟩ [] ∅ {eleven M} fun name hname => by
      have hne : name ≠ eleven M := fun h => hname (Or.inr ⟨_, h⟩)
      simp [hne]
    rw [choose_eleven hfound, Linklist.choose_eq (by simp)] at hsame
    -- one name starts with a letter, the other with a digit
    have hhead := congrArg List.head? hsame
    have hvideo : (videoFile (Channel.number (devicePath N))).head? = some 118 := rfl
    have heleven : (snprintf 511 (eleven M)).head? = some 48 := rfl
    rw [hvideo, heleven] at hhead
    exact absurd hhead (by decide)
  · rintro ⟨hpath, hfront⟩
    exact separate_of hpath hfront

/-- Two devices with one digit share a file. -/
theorem not_separate : ¬ ∀ (home : Name) (N M : ℕ), N ≠ M → Separate home N M := by
  intro h
  let d : Decoder := Decoder.new 0 true .single []
  have hpath := (h (bytesOf "/root") 5 6 (by decide) 0 0 d d _ _ rfl rfl).1
  exact hpath rfl

end IvySync

import IvySync.Xmlrpc.Server

/-!
# The headers of the messages

`readHeader` of `XmlRpcServerConnection` and of `XmlRpcClient` look for the end of the header in
what has arrived so far, for the length of the body and for what is said about the connection.  They
are called again with more bytes until the end is there.  What they have found then does not depend
on how many bytes of the body had arrived as well (`scan_append`).
-/

namespace IvySync

open XmlRpcUtil

namespace Http

/-- What the loop of `readHeader` has found: the text from the value of `Content-length` on, from
that of `Connection` on, and from the start of the body on. -/
@[ext] structure Found where
  lp : Option Name := none
  kp : Option Name := none
  bp : Option Name := none
  deriving DecidableEq, Repr

/-- The fields that the loop looks for, and the ends of a header. -/
def contentLength : Name := bytesOf "Content-length: "

def connection : Name := bytesOf "Connection: "

def crlfcrlf : Name := bytesOf "\r\n\r\n"

def lflf : Name := bytesOf "\n\n"

/-- The loop of `readHeader`.  The client does not look for `Connection`.  An end is seen only when
something stands behind it. -/
def scan (server : Bool) (f : Found) : Name → Found
  | [] => f
  | c :: rest =>
    let cp := c :: rest
    if 16 < cp.length ∧ strncasecmp cp contentLength 16 then
      scan server { f with lp := some (cp.drop 16) } rest
    else if server ∧ 12 < cp.length ∧ strncasecmp cp connection 12 then
      scan server { f with kp := some (cp.drop 12) } rest
    else if 4 < cp.length ∧ crlfcrlf <+: cp then { f with bp := some (cp.drop 4) }
    else if 2 < cp.length ∧ lflf <+: cp then { f with bp := some (cp.drop 2) }
    else scan server f rest

/-- Whether a connection is kept, from the header as far as it has been read and the value of
`Connection`. -/
def keepAlive (header : Name) (kp : Option Name) : Bool :=
  if strstr header (bytesOf "HTTP/1.0") then
    match kp with
    | none => false
    | some kp => strncasecmp kp (bytesOf "keep-alive") 10
  else
    match kp with
    | none => true
    | some kp => !strncasecmp kp (bytesOf "close") 5

/-- What `readHeader` decides about the bytes that it has. -/
inductive Header
  /-- There is no end yet. -/
  | incomplete
  /-- The length is missing or invalid. -/
  | invalid
  /-- The length of the body, whether the connection is kept, and the body as far as it is there. -/
  | complete (length : ℤ) (keep : Bool) (body : Name)
  deriving DecidableEq, Repr

/-- What `readHeader` does with the header.  The body is copied as a C string. -/
def readHeader (server : Bool) (header : Name) : Header :=
  let f := scan server {} header
  match f.bp with
  | none => .incomplete
  | some bp =>
    match f.lp with
    | none => .invalid
    | some lp =>
      if atoi32 lp ≤ 0 then .invalid
      else .complete (atoi32 lp) (keepAlive header f.kp) (cString bp)

/-! ### More bytes -/

variable {server : Bool} {f : Found} {s t x : Name} {c : UInt8}

namespace Found

/-- What was found, with more bytes behind it. -/
def append (f : Found) (t : Name) : Found :=
  ⟨f.lp.map (· ++ t), f.kp.map (· ++ t), f.bp.map (· ++ t)⟩

@[simp] theorem append_bp (f : Found) (t : Name) : (f.append t).bp = f.bp.map (· ++ t) := rfl

@[simp] theorem append_lp (f : Found) (t : Name) : (f.append t).lp = f.lp.map (· ++ t) := rfl

@[simp] theorem append_kp (f : Found) (t : Name) : (f.append t).kp = f.kp.map (· ++ t) := rfl

end Found

/-- The end of a header has the end of a line in it. -/
theorem newline_mem (hf : f.bp = none) (h : (scan server f s).bp ≠ none) : 10 ∈ s := by
  induction s generalizing f with
  | nil => exact absurd hf h
  | cons c s ih =>
    rw [scan] at h
    split_ifs at h with h1 h2 h3 h4
    · exact List.mem_cons_of_mem _ (ih (f := { f with lp := some ((c :: s).drop 16) }) hf h)
    · exact List.mem_cons_of_mem _ (ih (f := { f with kp := some ((c :: s).drop 12) }) hf h)
    · exact h3.2.subset (by decide)
    · exact h4.2.subset (by decide)
    · exact List.mem_cons_of_mem _ (ih hf h)

/-- A field that begins in the bytes that were there, and goes on in those that were not, has no end
of a line in the former. -/
theorem newline_notMem {field : Name} {n : ℕ} (hfield : 10 ∉ field.map tolower)
    (hcmp : strncasecmp (s ++ t) field n = true) (hlength : s.length ≤ n) : 10 ∉ s := by
  intro hmem
  have heq : ((s ++ t).take n).map tolower = (field.take n).map tolower := by
    simpa [strncasecmp] using hcmp
  have hin : 10 ∈ ((s ++ t).take n).map tolower := by
    rw [List.take_append, List.take_of_length_le hlength]
    exact List.mem_map.mpr ⟨10, List.mem_append_left _ hmem, rfl⟩
  rw [heq] at hin
  obtain ⟨d, hd, hd10⟩ := List.mem_map.mp hin
  exact hfield (List.mem_map.mpr ⟨d, List.mem_of_mem_take hd, hd10⟩)

/-- With enough bytes, a field is there or is not, whatever stands behind them. -/
theorem field_append_iff (field : Name) (n : ℕ) (t : Name) (hfield : 10 ∉ field.map tolower)
    (hmem : 10 ∈ s) :
    (n < (s ++ t).length ∧ strncasecmp (s ++ t) field n) ↔
      n < s.length ∧ strncasecmp s field n := by
  rcases Nat.lt_or_ge n s.length with hlt | hge
  · have htake : (s ++ t).take n = s.take n := List.take_append_of_le_length hlt.le
    simp only [strncasecmp, htake, List.length_append, hlt, true_and, and_iff_right_iff_imp]
    omega
  · constructor
    · rintro ⟨-, hcmp⟩
      exact absurd hmem (newline_notMem hfield hcmp hge)
    · rintro ⟨hlt, -⟩
      omega

/-- Nothing is found in a part of the end of a header. -/
theorem scan_of_isPrefix (h : s <+: crlfcrlf ∨ s <+: lflf) : (scan server f s).bp = f.bp := by
  have hcases : s ∈ crlfcrlf.inits ++ lflf.inits := by
    simpa [List.mem_inits] using h
  have hinits : crlfcrlf.inits ++ lflf.inits =
      [[], [13], [13, 10], [13, 10, 13], crlfcrlf, [], [10], lflf] := by decide
  simp only [hinits, List.mem_cons, List.not_mem_nil, or_false] at hcases
  rcases hcases with rfl | rfl | rfl | rfl | rfl | rfl | rfl | rfl <;> cases server <;> rfl

/-- With enough bytes, the header ends here or does not, whatever stands behind them. -/
theorem end_append_iff (mark t : Name) (hmark : ¬ s <+: mark) :
    (mark.length < (s ++ t).length ∧ mark <+: s ++ t) ↔ mark.length < s.length ∧ mark <+: s := by
  constructor
  · rintro ⟨-, hprefix⟩
    rcases List.prefix_or_prefix_of_prefix hprefix (List.prefix_append s t) with h | h
    · refine ⟨lt_of_le_of_ne h.length_le ?_, h⟩
      intro heq
      exact hmark (h.eq_of_length heq ▸ List.prefix_refl _)
    · exact absurd h hmark
  · rintro ⟨hlt, hprefix⟩
    exact ⟨by rw [List.length_append]; omega, hprefix.trans (List.prefix_append _ _)⟩

/-- Where the end of the header has been found, more bytes change nothing in what was found, but
that they stand behind it. -/
theorem scan_append (hf : f.bp = none) (h : (scan server f s).bp ≠ none) (t : Name) :
    scan server (f.append t) (s ++ t) = (scan server f s).append t := by
  induction s generalizing f with
  | nil => exact absurd hf h
  | cons c s ih =>
    have hmem := newline_mem hf h
    have hpart : ¬ (c :: s <+: crlfcrlf ∨ c :: s <+: lflf) :=
      fun hp => h (by rw [scan_of_isPrefix hp, hf])
    have h1 := field_append_iff contentLength 16 t (by decide) hmem
    have h2 := field_append_iff connection 12 t (by decide) hmem
    have h3 := end_append_iff crlfcrlf t fun hp => hpart (Or.inl hp)
    have h4 := end_append_iff lflf t fun hp => hpart (Or.inr hp)
    have h3' : crlfcrlf.length = 4 := rfl
    have h4' : lflf.length = 2 := rfl
    rw [h3'] at h3
    rw [h4'] at h4
    rw [List.cons_append] at h1 h2 h3 h4 ⊢
    rw [scan, scan]
    rw [scan] at h
    simp only [h1, h2, h3, h4]
    split_ifs at h ⊢ with c1 c2 c3 c4
    · rw [← ih (f := { f with lp := some ((c :: s).drop 16) }) hf h, Found.append,
        ← List.cons_append, List.drop_append_of_le_length c1.1.le]
      rfl
    · rw [← ih (f := { f with kp := some ((c :: s).drop 12) }) hf h, Found.append,
        ← List.cons_append, List.drop_append_of_le_length c2.2.1.le]
      rfl
    · rw [Found.append, ← List.cons_append, List.drop_append_of_le_length c3.1.le]
      rfl
    · rw [Found.append, ← List.cons_append, List.drop_append_of_le_length c4.1.le]
      rfl
    · exact ih hf h

/-! ### A header with its length -/

/-- A header that ends with its last byte, and gives this length for the body. -/
structure Framed (server : Bool) (head : Name) (n : ℕ) : Prop where
  pending : (scan server {} head).bp = none
  found : ∀ x ≠ [], ∃ lp kp, scan server {} (head ++ x) = ⟨some lp, kp, some x⟩ ∧ atoi32 lp = n

variable {head d : Name} {n : ℕ}

/-- No part of a header has its end. -/
theorem Framed.incomplete (h : Framed server head n) (hd : d <+: head) :
    readHeader server d = .incomplete := by
  have hnone : (scan server {} d).bp = none := by
    by_contra hne
    obtain ⟨t, rfl⟩ := hd
    have hmore := scan_append (f := {}) rfl hne t
    have hpending := h.pending
    change scan server {} (d ++ t) = _ at hmore
    rw [hmore, Found.append_bp, Option.map_eq_none_iff] at hpending
    exact hne hpending
  rw [readHeader, hnone]

/-- With something behind it, the header is complete. -/
theorem Framed.complete (h : Framed server head n) (hn : 0 < n) (hx : x ≠ []) (h0 : 0 ∉ x) :
    ∃ keep, readHeader server (head ++ x) = .complete n keep x := by
  obtain ⟨lp, kp, hscan, hlength⟩ := h.found x hx
  have hstring : cString x = x := List.takeWhile_eq_self_iff.mpr fun c hc => by
    simpa using fun h : c = 0 => h0 (h ▸ hc)
  refine ⟨keepAlive (head ++ x) kp, ?_⟩
  rw [readHeader, hscan]
  simp only [hlength, hstring]
  rw [if_neg (by omega)]

/-! ### The lines of a header -/

/-- No field begins with a character that is not the first one of both. -/
theorem strncasecmp_first {field : Name} {n : ℕ} (hc : tolower c ≠ 99)
    (hfield : (field.take (n + 1)).map tolower = 99 :: ((field.take (n + 1)).map tolower).tail) :
    strncasecmp (c :: s) field (n + 1) = false := by
  rw [strncasecmp, hfield, List.take_succ_cons, List.map_cons, decide_eq_false_iff_not]
  intro heq
  exact hc (List.cons.inj heq).1

/-- The loop goes on from such a character that is not in the end of a header. -/
theorem scan_plain {line : Name} (h : ∀ c ∈ line, tolower c ≠ 99 ∧ c ≠ 13 ∧ c ≠ 10) (f : Found)
    (t : Name) : scan server f (line ++ t) = scan server f t := by
  induction line with
  | nil => rfl
  | cons c line ih =>
    obtain ⟨⟨hc, h13, h10⟩, hline⟩ := List.forall_mem_cons.mp h
    have h1 : strncasecmp (c :: (line ++ t)) contentLength 16 = false := strncasecmp_first hc rfl
    have h2 : strncasecmp (c :: (line ++ t)) connection 12 = false := strncasecmp_first hc rfl
    have h3 : ¬ crlfcrlf <+: c :: (line ++ t) := fun hp => h13 (List.cons_prefix_cons.mp hp).1.symm
    have h4 : ¬ lflf <+: c :: (line ++ t) := fun hp => h10 (List.cons_prefix_cons.mp hp).1.symm
    rw [List.cons_append, scan]
    simp only [h1, h2, h3, h4, and_false, Bool.false_eq_true, if_false]
    exact ih hline

/-- In a line there is no end of a header, whatever fields there are. -/
theorem scan_line (server : Bool) {line : Name} (h : 13 ∉ line ∧ 10 ∉ line) (f : Found) (t : Name) :
    ∃ f' : Found, f'.bp = f.bp ∧ scan server f (line ++ t) = scan server f' t := by
  induction line generalizing f with
  | nil => exact ⟨f, rfl, rfl⟩
  | cons c line ih =>
    simp only [List.mem_cons, not_or] at h
    have h3 : ¬ crlfcrlf <+: c :: (line ++ t) := fun hp => h.1.1 (List.cons_prefix_cons.mp hp).1
    have h4 : ¬ lflf <+: c :: (line ++ t) := fun hp => h.2.1 (List.cons_prefix_cons.mp hp).1
    rw [List.cons_append, scan]
    simp only [h3, h4, and_false, if_false]
    split_ifs
    · exact ih ⟨h.1.2, h.2.2⟩ { f with lp := some ((c :: (line ++ t)).drop 16) }
    · exact ih ⟨h.1.2, h.2.2⟩ { f with kp := some ((c :: (line ++ t)).drop 12) }
    · exact ih ⟨h.1.2, h.2.2⟩ f

/-- The end of a line with another one behind it is not the end of the header. -/
theorem scan_crlf (h13 : c ≠ 13) (h10 : c ≠ 10) (f : Found) (s : Name) :
    scan server f (13 :: 10 :: c :: s) = scan server f (c :: s) := by
  have hcr : ∀ s', strncasecmp (13 :: s') contentLength 16 = false ∧
      strncasecmp (13 :: s') connection 12 = false := fun s' =>
    ⟨strncasecmp_first (by decide) rfl, strncasecmp_first (by decide) rfl⟩
  have hlf : ∀ s', strncasecmp (10 :: s') contentLength 16 = false ∧
      strncasecmp (10 :: s') connection 12 = false := fun s' =>
    ⟨strncasecmp_first (by decide) rfl, strncasecmp_first (by decide) rfl⟩
  have hend : ¬ crlfcrlf <+: 13 :: 10 :: c :: s := by
    simp [crlfcrlf, bytesOf, h13.symm]
  have hend' : ¬ lflf <+: 10 :: c :: s := by
    simp [lflf, bytesOf, h10.symm]
  have hcr' : ¬ lflf <+: 13 :: 10 :: c :: s := by simp [lflf, bytesOf]
  have hlf' : ¬ crlfcrlf <+: 10 :: c :: s := by simp [crlfcrlf, bytesOf]
  have hten : scan server f (10 :: c :: s) = scan server f (c :: s) := by
    rw [scan]
    simp only [hlf, hend', hlf', and_false, Bool.false_eq_true, if_false]
  rw [scan]
  simp only [hcr, hend, hcr', and_false, Bool.false_eq_true, if_false]
  exact hten

/-- The end of a header with something behind it. -/
theorem scan_end (f : Found) (hx : x ≠ []) :
    scan server f (crlfcrlf ++ x) = { f with bp := some x } := by
  have hlength : 4 < (crlfcrlf ++ x).length := by
    have hpos := List.length_pos_of_ne_nil hx
    have hmark : crlfcrlf.length = 4 := rfl
    rw [List.length_append]
    omega
  have hcr : strncasecmp (13 :: (10 :: 13 :: 10 :: x)) contentLength 16 = false ∧
      strncasecmp (13 :: (10 :: 13 :: 10 :: x)) connection 12 = false :=
    ⟨strncasecmp_first (by decide) rfl, strncasecmp_first (by decide) rfl⟩
  change scan server f (13 :: (10 :: 13 :: 10 :: x)) = _
  change 4 < (13 :: (10 :: 13 :: 10 :: x)).length at hlength
  have hprefix : crlfcrlf <+: 13 :: (10 :: 13 :: 10 :: x) := List.prefix_append crlfcrlf x
  rw [scan]
  simp only [hcr, hlength, hprefix, and_false, and_true, Bool.false_eq_true, if_false, if_true]
  rfl

/-- A line of a header. -/
def Line (line : Name) : Prop := line ≠ [] ∧ 13 ∉ line ∧ 10 ∉ line

/-- The lines of a header, and the line with the length of the body. -/
def headerOf (lines : List Name) (n : ℤ) : Name :=
  lines.flatMap (· ++ crlf) ++ (contentLength ++ (printD n ++ crlfcrlf))

/-- The loop comes to the line with the length. -/
theorem scan_lines (server : Bool) {lines : List Name} (h : ∀ line ∈ lines, Line line) (f : Found)
    (t : Name) :
    ∃ f' : Found, f'.bp = f.bp ∧
      scan server f (lines.flatMap (· ++ crlf) ++ (contentLength ++ t)) =
        scan server f' (contentLength ++ t) := by
  induction lines generalizing f with
  | nil => exact ⟨f, rfl, rfl⟩
  | cons line lines ih =>
    obtain ⟨⟨-, hline⟩, hlines⟩ := List.forall_mem_cons.mp h
    -- what stands behind the end of the line begins with another line
    obtain ⟨c, s, hnext, h13, h10⟩ : ∃ c s,
        lines.flatMap (· ++ crlf) ++ (contentLength ++ t) = c :: s ∧ c ≠ 13 ∧ c ≠ 10 := by
      cases lines with
      | nil => exact ⟨67, _, rfl, by decide, by decide⟩
      | cons next lines =>
        obtain ⟨hne, hcr, hlf⟩ := hlines next (List.mem_cons_self ..)
        obtain ⟨c, s, rfl⟩ := List.exists_cons_of_ne_nil hne
        exact ⟨c, _, rfl, fun h => hcr (by simp [h]), fun h => hlf (by simp [h])⟩
    obtain ⟨f₁, hf₁, hscan₁⟩ := scan_line server hline f
      (13 :: 10 :: (lines.flatMap (· ++ crlf) ++ (contentLength ++ t)))
    obtain ⟨f₂, hf₂, hscan₂⟩ := ih hlines f₁
    refine ⟨f₂, hf₂.trans hf₁, ?_⟩
    calc
      scan server f ((line :: lines).flatMap (· ++ crlf) ++ (contentLength ++ t)) =
          scan server f (line ++
            13 :: 10 :: (lines.flatMap (· ++ crlf) ++ (contentLength ++ t))) := by
        simp [crlf, bytesOf]
      _ = scan server f₁ (13 :: 10 :: (lines.flatMap (· ++ crlf) ++ (contentLength ++ t))) := hscan₁
      _ = scan server f₁ (lines.flatMap (· ++ crlf) ++ (contentLength ++ t)) := by
        rw [hnext, scan_crlf h13 h10]
      _ = _ := hscan₂

/-- The line with the length gives what stands behind it. -/
theorem scan_contentLength {t : Name} (ht : t ≠ []) (f : Found) :
    scan server f (contentLength ++ t) = scan server { f with lp := some t } t := by
  have hlength : 16 < (contentLength ++ t).length := by
    have hpos := List.length_pos_of_ne_nil ht
    have hfield : contentLength.length = 16 := rfl
    rw [List.length_append]
    omega
  have hcmp : strncasecmp (contentLength ++ t) contentLength 16 = true := by
    have htake : (contentLength ++ t).take 16 = contentLength := List.take_left' rfl
    rw [strncasecmp, htake]
    rfl
  have hplain : ∀ c ∈ contentLength.tail, tolower c ≠ 99 ∧ c ≠ 13 ∧ c ≠ 10 := by decide +kernel
  have hcons : contentLength ++ t = 67 :: (contentLength.tail ++ t) := rfl
  rw [hcons] at hlength hcmp ⊢
  rw [scan, if_pos ⟨hlength, hcmp⟩, scan_plain hplain]
  rfl

/-- A header whose last line gives the length of the body. -/
theorem framed_headerOf {lines : List Name} (h : ∀ line ∈ lines, Line line) (hn : n < 2 ^ 31) :
    Framed server (headerOf lines n) n := by
  have hlast : ∀ x, ∃ f' : Found, f'.bp = none ∧ scan server {} (headerOf lines n ++ x) =
      scan server { f' with lp := some (printD n ++ (crlfcrlf ++ x)) } (crlfcrlf ++ x) := by
    intro x
    obtain ⟨f', hf', hscan⟩ := scan_lines server h {} (printD n ++ (crlfcrlf ++ x))
    refine ⟨f', hf', ?_⟩
    have hdigits : ∀ c ∈ printD n, tolower c ≠ 99 ∧ c ≠ 13 ∧ c ≠ 10 := by
      intro c hc
      rw [printD, if_neg (by omega)] at hc
      have hdigit := digits_decimal _ c hc
      unfold isdigit at hdigit
      unfold tolower
      grind
    have happ : headerOf lines n ++ x =
        lines.flatMap (· ++ crlf) ++ (contentLength ++ (printD n ++ (crlfcrlf ++ x))) := by
      simp [headerOf]
    rw [happ, hscan, scan_contentLength (by simp [crlfcrlf, bytesOf]), scan_plain hdigits]
  constructor
  · obtain ⟨f', hf', hscan⟩ := hlast []
    rw [List.append_nil] at hscan
    rw [hscan, scan_of_isPrefix (Or.inl (by simp))]
    exact hf'
  · intro x hx
    obtain ⟨f', -, hscan⟩ := hlast x
    refine ⟨_, f'.kp, by rw [hscan, scan_end _ hx], ?_⟩
    have hread : strtol (printD n ++ (crlfcrlf ++ x)) = some ((n : ℤ), crlfcrlf ++ x) :=
      strtol_printD (by omega) (by decide)
    rw [atoi32, hread]
    dsimp only
    rw [int32, Int.bmod_eq_of_le] <;> omega

/-! ### Messages -/

/-- A message: a header, and a body of the length that the header gives.  The body has no NUL, with
which its copy would end. -/
structure Message (server : Bool) where
  head : Name
  body : Name
  framed : Framed server head body.length
  pos : 0 < body.length
  lt : head.length + body.length < 2 ^ 31
  nul : 0 ∉ body

namespace Message

/-- The bytes of a message. -/
def text (m : Message server) : Name := m.head ++ m.body

theorem length_text (m : Message server) : m.text.length < 2 ^ 31 := by
  rw [text, List.length_append]
  exact m.lt

theorem text_ne_nil (m : Message server) : m.text ≠ [] := by
  have hpos := m.pos
  rw [text]
  intro hnil
  rw [(List.append_eq_nil_iff.mp hnil).2] at hpos
  exact absurd hpos (by decide)

/-- What is found in the first bytes of a message. -/
theorem readHeader_prefix (m : Message server) (hd : d <+: m.text) :
    d <+: m.head ∧ readHeader server d = .incomplete ∨
      ∃ x keep, x ≠ [] ∧ x <+: m.body ∧ d = m.head ++ x ∧
        readHeader server d = .complete m.body.length keep x := by
  rcases List.prefix_or_prefix_of_prefix hd (List.prefix_append _ _) with hhead | ⟨x, rfl⟩
  · exact Or.inl ⟨hhead, m.framed.incomplete hhead⟩
  · have hx : x <+: m.body := (List.prefix_append_right_inj _).mp hd
    rcases eq_or_ne x [] with rfl | hne
    · rw [List.append_nil]
      exact Or.inl ⟨List.prefix_refl _, m.framed.incomplete (List.prefix_refl _)⟩
    · obtain ⟨keep, hread⟩ := m.framed.complete m.pos hne fun h0 => m.nul (hx.subset h0)
      exact Or.inr ⟨x, keep, hne, hx, rfl, hread⟩

/-- The bytes of a message tell what its body is. -/
theorem readHeader_text (m : Message server) :
    ∃ keep, readHeader server m.text = .complete m.body.length keep m.body := by
  rcases m.readHeader_prefix (List.prefix_refl _) with ⟨hhead, -⟩ | ⟨x, keep, -, -, hsplit, hread⟩
  · have hle := hhead.length_le
    have hpos := m.pos
    rw [text, List.length_append] at hle
    omega
  · obtain rfl : m.body = x := (List.append_cancel_left hsplit)
    exact ⟨keep, hread⟩

theorem body_eq {m m' : Message server} (h : m.text = m'.text) : m.body = m'.body := by
  obtain ⟨keep, hread⟩ := m.readHeader_text
  obtain ⟨keep', hread'⟩ := m'.readHeader_text
  rw [h, hread'] at hread
  exact (Header.complete.inj hread).2.2.symm

/-- A header whose last line gives the length of the body, and the body. -/
def ofLines (lines : List Name) (body : Name) (h : ∀ line ∈ lines, Line line) (hpos : body ≠ [])
    (hlt : (headerOf lines body.length ++ body).length < 2 ^ 31) (hnul : 0 ∉ body) :
    Message server where
  head := headerOf lines body.length
  body := body
  framed := framed_headerOf h (by rw [List.length_append] at hlt; omega)
  pos := List.length_pos_of_ne_nil hpos
  lt := by rwa [List.length_append] at hlt
  nul := hnul

/-- There are messages. -/
instance : Inhabited (Message server) :=
  ⟨ofLines [] [32] (by simp) (by simp) (by decide) (by decide)⟩

end Message

end Http

end IvySync

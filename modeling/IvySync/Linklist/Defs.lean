import IvySync.Decoder.Playlist
import IvySync.Foundation.Linked
import Mathlib.Data.Int.Init

/-!
# The pointer structure of a playlist

The classes `Entry` and `Linklist` on a heap that is kept field by field, a pointer being the
address of an entry or `none` for NULL, and the edits of `Decoder` on its playlist.  An assignment
through a pointer updates one field at one address, in the order of the source; following a NULL
pointer yields `none`.

The locks of `THREADSAFE`, which the source leaves undefined, are left out.

`Decoder::empty` also sets the position of the decoder, which is no part of the list: that
assignment stands in `Decoder/Defs`.
-/

namespace IvySync

/-- The address of an entry. -/
abbrev Addr := ℕ

/-- The address of a list. -/
abbrev ListId := ℕ

/-- The fields of all entries and of all lists. -/
structure Heap where
  next : Addr → Option Addr
  prev : Addr → Option Addr
  /-- The list an entry is in, `none` for NULL. -/
  list : Addr → Option ListId
  select : Addr → Bool
  /-- The array of 512 bytes in an entry. -/
  name : Addr → List UInt8
  /-- The memory at the address is allocated to an entry. -/
  live : Addr → Bool
  first : ListId → Option Addr
  last : ListId → Option Addr
  length : ListId → ℤ

namespace Heap

/-- `o->next = v`, or `list->first = v` when `o` is NULL. -/
def setNext (h : Heap) (L : ListId) (o v : Option Addr) : Heap :=
  match o with
  | some a => { h with next := Function.update h.next a v }
  | none => { h with first := Function.update h.first L v }

/-- `o->prev = v`, or `list->last = v` when `o` is NULL. -/
def setPrev (h : Heap) (L : ListId) (o v : Option Addr) : Heap :=
  match o with
  | some a => { h with prev := Function.update h.prev a v }
  | none => { h with last := Function.update h.last L v }

end Heap

/-- `MAX_ENTRY_NAME`. -/
def maxEntryName : ℕ := 512

/-- The bytes of a C string: those before its first NUL. -/
def cString (s : List UInt8) : Name := s.takeWhile (· ≠ 0)

/-- `strncpy`: at most `n` bytes of the string, then NULs up to `n` bytes in all; what stands behind
them stays. -/
def strncpy (dest src : List UInt8) (n : ℕ) : List UInt8 :=
  let copied := (cString src).take n
  copied ++ List.replicate (n - copied.length) 0 ++ dest.drop n

namespace Entry

variable (addr : Addr) (h : Heap)

/-- The name that `strcpy` gives to a new entry. -/
def noname : Name := [110, 111, 110, 97, 109, 101]

/-- `new Entry()` at an address, with what the memory held where the constructor does not write. -/
def new (memory : List UInt8) : Heap :=
  { h with
      next := Function.update h.next addr none
      prev := Function.update h.prev addr none
      list := Function.update h.list addr none
      select := Function.update h.select addr false
      name := Function.update h.name addr (noname ++ 0 :: memory.drop (noname.length + 1))
      live := Function.update h.live addr true }

/-- `Entry::set_name`. -/
def setName (nn : Name) : Heap :=
  { h with name := Function.update h.name addr (strncpy (h.name addr) nn (maxEntryName - 1)) }

/-- `Entry::rem`: the neighbours, or the ends of the list, are linked to each other.  The successor
inherits the selection, or the predecessor when there is no successor.  The pointers of the entry
itself stay as they are. -/
def rem : Heap :=
  match h.list addr with
  | none => h
  | some L =>
    let lastone := (h.next addr).isNone
    let h := match h.next addr with
      | some next =>
        { h with
            prev := Function.update h.prev next (h.prev addr)
            select := Function.update h.select next (h.select addr) }
      | none => { h with last := Function.update h.last L (h.prev addr) }
    let h := match h.prev addr with
      | some prev =>
        { h with
            next := Function.update h.next prev (h.next addr)
            select :=
              if lastone then Function.update h.select prev (h.select addr) else h.select }
      | none => { h with first := Function.update h.first L (h.next addr) }
    { h with
        length := Function.update h.length L (h.length L - 1)
        list := Function.update h.list addr none }

/-- `Entry::up`; the neighbours are read before anything is written. -/
def up : Heap × Bool :=
  match h.prev addr, h.list addr with
  | some tprev, some L =>
    let tnext := h.next addr
    let pp := h.prev tprev
    let h := h.setPrev L tnext (some tprev)
    let h := { h with
      next := Function.update h.next addr (some tprev)
      prev := Function.update h.prev addr pp }
    let h := { h with
      next := Function.update h.next tprev tnext
      prev := Function.update h.prev tprev (some addr) }
    let h := match pp with
      | some p => { h with next := Function.update h.next p (some addr) }
      | none => h
    let h := match h.prev addr with
      | some _ => h
      | none => { h with first := Function.update h.first L (some addr) }
    (h, true)
  | _, _ => (h, false)

/-- `Entry::down`. -/
def down : Heap × Bool :=
  match h.next addr, h.list addr with
  | some tnext, some L =>
    let tprev := h.prev addr
    let nn := h.next tnext
    let h := h.setNext L tprev (some tnext)
    let h := { h with
      prev := Function.update h.prev addr (some tnext)
      next := Function.update h.next addr nn }
    let h := { h with
      prev := Function.update h.prev tnext tprev
      next := Function.update h.next tnext (some addr) }
    let h := match nn with
      | some n => { h with prev := Function.update h.prev n (some addr) }
      | none => h
    let h := match h.next addr with
      | some _ => h
      | none => { h with last := Function.update h.last L (some addr) }
    (h, true)
  | _, _ => (h, false)

/-- `delete`: the destructor calls `rem`, then the memory is free. -/
def delete : Heap :=
  let h := rem addr h
  { h with live := Function.update h.live addr false }

end Entry

namespace Linklist

/-- A heap without an entry. -/
def unused : Heap where
  next _ := none
  prev _ := none
  list _ := none
  select _ := false
  name _ := []
  live _ := false
  first _ := none
  last _ := none
  length _ := 0

variable (L : ListId) (addr : Addr) (h : Heap)

/-- `Linklist::Linklist`. -/
def new : Heap :=
  { h with
      first := Function.update h.first L none
      last := Function.update h.last L none
      length := Function.update h.length L 0 }

/-- `Linklist::append` of an entry, not of NULL. -/
def append : Heap :=
  let h := if (h.list addr).isSome then Entry.rem addr h else h
  let h := match h.last L with
    | none =>
      { h with
          last := Function.update h.last L (some addr)
          next := Function.update h.next addr none
          prev := Function.update h.prev addr none
          first := Function.update h.first L (some addr) }
    | some ptr =>
      { h with
          next := Function.update (Function.update h.next ptr (some addr)) addr none
          prev := Function.update h.prev addr (some ptr)
          last := Function.update h.last L (some addr) }
  { h with
      list := Function.update h.list addr (some L)
      length := Function.update h.length L (h.length L + 1) }

/-- `Linklist::prepend`. -/
def prepend : Heap :=
  let h := if (h.list addr).isSome then Entry.rem addr h else h
  let h := match h.first L with
    | none =>
      { h with
          first := Function.update h.first L (some addr)
          next := Function.update h.next addr none
          prev := Function.update h.prev addr none
          last := Function.update h.last L (some addr) }
    | some ptr =>
      { h with
          prev := Function.update (Function.update h.prev ptr (some addr)) addr none
          next := Function.update h.next addr (some ptr)
          first := Function.update h.first L (some addr) }
  { h with
      list := Function.update h.list addr (some L)
      length := Function.update h.length L (h.length L + 1) }

/-- `Linklist::pick`, with its shortcuts for the two ends. -/
def pick (pos : ℤ) : Option Addr :=
  if h.length L < pos ∨ pos < 1 then none
  else if pos = 1 then h.first L
  else if pos = h.length L then h.last L
  else Linked.walk h.next (pos - 1).toNat (h.first L)

/-- `Linklist::insert`; `none` when a NULL pointer is followed, which is that of the entry found at
`pos` or that of its predecessor. -/
def insert (pos : ℤ) : Option Heap :=
  if h.length L ≤ pos then some (append L addr h)
  else if pos ≤ 1 then some (prepend L addr h)
  else
    let h := if (h.list addr).isSome then Entry.rem addr h else h
    (pick L h pos).bind fun ptr =>
      (h.prev ptr).map fun before =>
        { h with
            next := Function.update (Function.update h.next before (some addr)) addr (some ptr)
            prev := Function.update (Function.update h.prev addr (some before)) ptr (some addr)
            length := Function.update h.length L (h.length L + 1)
            list := Function.update h.list addr (some L) }

/-- `Linklist::insert_after`.  Behind the last entry the pointer to the next one is not written. -/
def insertAfter (pos : Addr) : Heap :=
  let h := if (h.list addr).isSome then Entry.rem addr h else h
  let h := match h.next pos with
    | some next =>
      { h with
          prev := Function.update h.prev next (some addr)
          next := Function.update h.next addr (some next) }
    | none => { h with last := Function.update h.last L (some addr) }
  { h with
      prev := Function.update h.prev addr (some pos)
      next := Function.update h.next pos (some addr)
      length := Function.update h.length L (h.length L + 1)
      list := Function.update h.list addr (some L) }

end Linklist

/-- `Entry::move`.  The pointers of this entry are read again after those of the entry at `pos` have
been written. -/
def Entry.move (addr : Addr) (h : Heap) (pos : ℤ) : Heap × Bool :=
  match h.list addr with
  | none => (h, false)
  | some L =>
    match Linklist.pick L h pos with
    | none => (h, false)
    | some swapping =>
      if swapping = addr then (h, true)
      else
        let tn := h.next swapping
        let tp := h.prev swapping
        let h := { h with next := Function.update h.next swapping (h.next addr) }
        let h := { h with prev := Function.update h.prev swapping (h.prev addr) }
        let h := h.setPrev L (h.next addr) (some swapping)
        let h := h.setNext L (h.prev addr) (some swapping)
        let h := { h with next := Function.update h.next addr tn }
        let h := { h with prev := Function.update h.prev addr tp }
        let h := h.setPrev L (h.next addr) (some addr)
        let h := h.setNext L (h.prev addr) (some addr)
        (h, true)

namespace Linklist

variable (L : ListId) (h : Heap)

/-- `Linklist::moveup`. -/
def moveup (pos : ℤ) : Heap × Bool :=
  match pick L h pos with
  | none => (h, false)
  | some p => Entry.up p h

/-- `Linklist::movedown`. -/
def movedown (pos : ℤ) : Heap × Bool :=
  match pick L h pos with
  | none => (h, false)
  | some p => Entry.down p h

/-- `Linklist::moveto`. -/
def moveto (num pos : ℤ) : Heap × Bool :=
  match pick L h num with
  | none => (h, false)
  | some p => Entry.move p h pos

end Linklist

/-- `Entry::sel`. -/
def Entry.sel (addr : Addr) (h : Heap) (on : Bool) : Heap :=
  { h with select := Function.update h.select addr on }

namespace Linklist

variable (L : ListId) (h : Heap)

/-- The loop of `Linklist::sel`, with the rounds that are left; `none` when NULL is followed. -/
def selLoop (pos : ℤ) : (c : ℕ) → Option Addr → Heap → Option Heap
  | 0, _, h => some h
  | _ + 1, none, _ => none
  | c + 1, some ptr, h =>
    let h := Entry.sel ptr h ((c : ℤ) + 1 = pos)
    selLoop pos c (h.prev ptr) h

/-- `Linklist::sel`. -/
def sel (pos : ℤ) : Option Heap :=
  if h.length L < pos then some h else selLoop pos (h.length L).toNat (h.last L) h

/-- The loop of `Linklist::selected`. -/
def selectedLoop (h : Heap) : (c : ℕ) → Option Addr → Option (Option Addr)
  | 0, _ => some none
  | _ + 1, none => none
  | c + 1, some ptr => if h.select ptr then some (some ptr) else selectedLoop h c (h.prev ptr)

/-- `Linklist::selected`; `none` when NULL is followed. -/
def selected : Option (Option Addr) := selectedLoop h (h.length L).toNat (h.last L)

/-- `Linklist::rem`. -/
def rem (pos : ℤ) : Heap :=
  match pick L h pos with
  | none => h
  | some ptr => Entry.rem ptr h

/-- `Linklist::clear`, which the destructor calls too. -/
def clear : Option Heap :=
  (sel L h 0).map fun h =>
    { h with
        length := Function.update h.length L 0
        first := Function.update h.first L none
        last := Function.update h.last L none }

end Linklist

/-- A call that adds an entry: the address that `new` returns, what the memory there holds, and the
file named in the call. -/
structure Arrival where
  addr : Addr
  memory : List UInt8
  file : Name
  deriving DecidableEq, Repr

namespace Arrival

/-- The first two lines of the calls that add an entry: `new Entry()` and `set_name`. -/
def make (x : Arrival) (h : Heap) : Heap :=
  Entry.setName x.addr (Entry.new x.addr h x.memory) x.file

end Arrival

namespace Linklist

namespace Decoder

variable (L : ListId) (h : Heap)

/-- `Decoder::append` on the playlist at `L`. -/
def append (x : Arrival) : Heap × Bool := (Linklist.append L x.addr (x.make h), true)

/-- `Decoder::prepend` on the playlist at `L`. -/
def prepend (x : Arrival) : Heap × Bool := (Linklist.prepend L x.addr (x.make h), true)

/-- `Decoder::insert` on the playlist at `L`. -/
def insert (x : Arrival) (pos : ℤ) : Option (Heap × Bool) :=
  (Linklist.insert L x.addr (x.make h) pos).map fun h => (h, true)

/-- `Decoder::remove` on the playlist at `L`. -/
def remove (pos : ℤ) : Heap × Bool :=
  match pick L h pos with
  | none => (h, false)
  | some ent => (Entry.delete ent h, true)

/-- The loop of `Decoder::empty`, given up after a number of rounds. -/
def emptyLoop (L : ListId) : ℕ → Heap → Option Heap
  | 0, _ => none
  | fuel + 1, h =>
    match h.first L with
    | none => some h
    | some ent => emptyLoop L fuel (Entry.delete ent (Entry.rem ent h))

/-- `Decoder::empty` on the playlist at `L`. -/
def empty (fuel : ℕ) : Option (Heap × Bool) := (emptyLoop L fuel h).map fun h => (h, true)

end Decoder

/-- The edits of `Decoder` on the playlist at `L`. -/
def edit (L : ListId) (fuel : ℕ) (h : Heap) : Playlist.Edit Arrival → Option (Heap × Bool)
  | .append x => some (Decoder.append L h x)
  | .prepend x => some (Decoder.prepend L h x)
  | .insert x pos => Decoder.insert L h x pos
  | .remove pos => some (Decoder.remove L h pos)
  | .empty => Decoder.empty L h fuel

/-- The playlist at `L` as a machine that is edited, with a bound on the rounds of `empty`. -/
def machine (L : ListId) (fuel : ℕ) : Machine Heap (Playlist.Edit Arrival) Bool where
  next h a := edit L fuel h a

/-- `new` returns the address of memory that is not in use. -/
def Fresh (h : Heap) (a : Playlist.Edit Arrival) : Prop :=
  ∀ x ∈ a.added, h.live x.addr = false

instance (h : Heap) (a : Playlist.Edit Arrival) : Decidable (Fresh h a) :=
  inferInstanceAs (Decidable (∀ x ∈ a.added, h.live x.addr = false))

end Linklist

end IvySync

import Libspill.Lib.Chained
import Libspill.Lib.Prog
import Libspill.Lib.Span
import Libspill.Os

set_option autoImplicit false

/-!
# The store

The structures of `internal.h`, with the words of the source. Unsigned arithmetic is on `ℕ` modulo
`2 ^ 64` (`add64`, `sub64`). Pointers are names: a memory-tier buffer or an extent array is found
through `Store.mem` or `Store.arr`, and a name is never used twice, so that a pointer held across
a lock keeps denoting the buffer or array it was taken from. Records are reached through the table
of contents by their key, and the LRU list is the list of the keys on it, most recently used first.

Allocations of bookkeeping memory (table, records, extent arrays, staging buffers) succeed; only
the buffers of the memory tier may be refused.
-/

namespace Libspill

/-! ## Constants -/

/-- The superblock, and the first data offset. -/
def LS_SUPER_SIZE : ℕ := 4096

/-- Extent alignment. -/
def LS_ALIGN : ℕ := 4096

/-- The staging chunk of direct I/O. -/
def LS_BOUNCE : ℕ := 4 * 2 ^ 20

/-- Below this a hole is not worth taking. -/
def LS_MIN_EXTENT : ℕ := 64 * 2 ^ 10

/-- The scatter-list bound; past it, the tail is used. -/
def LS_MAX_EXTENTS : ℕ := 8

/-- Bytes in a key. -/
def LS_KEY_MAX : ℕ := 255

/-- Bytes in an attribute blob. -/
def LS_ATTR_MAX : ℕ := 256

/-- Addition of unsigned 64-bit numbers. -/
def add64 (a b : ℕ) : ℕ := (a + b) % 2 ^ 64

/-- Subtraction of unsigned 64-bit numbers. -/
def sub64 (a b : ℕ) : ℕ := (a + (2 ^ 64 - b)) % 2 ^ 64

theorem add64_eq {a b : ℕ} (h : a + b < 2 ^ 64) : add64 a b = a + b := Nat.mod_eq_of_lt h

theorem sub64_eq {a b : ℕ} (h : b ≤ a) (ha : a < 2 ^ 64) : sub64 a b = a - b := by
  unfold sub64
  rw [show a + (2 ^ 64 - b) = a - b + 2 ^ 64 by omega, Nat.add_mod_right, Nat.mod_eq_of_lt (by omega)]

/-! ## Keys -/

/-- A C string: bytes without a NUL. -/
abbrev CStr : Type := {l : List UInt8 // (0 : UInt8) ∉ l}

/-- The C string a buffer starts with. -/
def cstr (b : List UInt8) : CStr :=
  ⟨b.takeWhile (· ≠ 0), fun h => by simpa using List.mem_takeWhile_imp h⟩

/-- A key has between 1 and `LS_KEY_MAX` bytes. -/
def lsKeyOk (key : CStr) : Bool := 0 < key.1.length && key.1.length ≤ LS_KEY_MAX

/-- FNV-1a. -/
def hashOf (k : CStr) : ℕ :=
  k.1.foldl (fun h c => ((h ^^^ c.toNat) * 1099511628211) % 2 ^ 64) 1469598103934665603

/-! ## Records -/

/-- The name of a buffer or of an extent array. -/
abbrev Ptr : Type := ℕ

/-- An extent of the store file. -/
abbrev Extent : Type := Span

/-- A hole of the store file. -/
abbrev Hole : Type := Span

/-- A record. Its bytes live in the buffer `mem` if there is one, else in its extents, the first
`next` entries of the array `ext`. -/
structure Rec where
  key : CStr
  size : ℕ := 0
  mem : Option Ptr := none
  memCap : ℕ := 0
  busy : ℕ := 0
  attr : List UInt8 := []
  ext : Option Ptr := none
  next : ℕ := 0
  ncap : ℕ := 0
  extTotal : ℕ := 0

instance : Keyed Rec CStr where
  key := Rec.key
  hash := hashOf

/-! ## Options -/

inductive Backend where
  | posix
  | hdf5
deriving DecidableEq, Repr

inductive Mode where
  | explicit
  | mapped
deriving DecidableEq, Repr

inductive Parallel where
  | loc
  | perRank
  | shared
deriving DecidableEq, Repr

/-- The options of a store that its behaviour depends on. -/
structure Opts where
  backend : Backend := .posix
  mode : Mode := .explicit
  parallel : Parallel := .loc
  memoryBudget : ℕ := 0
  directIo : Bool := false
  exactName : Bool := false
  durableClose : Bool := false
deriving DecidableEq, Repr

/-! ## The store -/

/-- The extent allocator: the free list, ascending, and the end of the last extent. -/
@[ext] structure Alloc where
  fl : List Hole
  fileEnd : ℕ
deriving DecidableEq, Repr

/-- An open store. -/
structure Store (σ : Type) where
  os : σ
  o : Opts
  direct : Bool
  toc : Chained Rec
  al : Alloc
  teardown : Bool
  retired : List Ptr
  resident : ℕ
  lru : List CStr
  mem : Ptr → ℕ → UInt8
  memNext : Ptr
  arr : Ptr → ℕ → Extent
  arrNext : Ptr

/-- What the model leaves to the run: how many iterations a loop may take, and where buffers lie
in memory (their alignment decides how direct I/O moves them). -/
structure Env where
  fuel : ℕ
  /-- The addresses of the memory tier's buffers. -/
  addr : Ptr → ℕ
  /-- The address of the superblock image. -/
  sbAddr : ℕ
  /-- The address of the table-of-contents image. -/
  tbAddr : ℕ

namespace Store

variable {σ : Type}

/-- `ls_toc_find`. -/
def find (s : Store σ) (key : CStr) : Option Rec := s.toc.find key

/-- The record a pointer to the record of `key` points to. -/
def recAt (s : Store σ) (key : CStr) : Rec := (s.find key).getD { key }

/-- All records, in table order. -/
def recs (s : Store σ) : List Rec := s.toc.toList

/-- Change the record of `key` in place. -/
def setRec (s : Store σ) (key : CStr) (f : Rec → Rec) : Store σ :=
  { s with toc := s.toc.update key f }

/-- The extents of a record, in logical order. -/
def exts (s : Store σ) (r : Rec) : List Extent :=
  match r.ext with
  | none => []
  | some p => (List.range r.next).map (s.arr p)

/-- The extents of all records. -/
def live (s : Store σ) : List Extent := s.recs.flatMap s.exts

end Store

/-- `ls_toc_insert`: an empty record under a key that has none. -/
def lsTocInsert {σ : Type} (s : Store σ) (key : CStr) : Store σ :=
  { s with toc := s.toc.insert { key } }

/-- `ls_toc_unlink`. -/
def lsTocUnlink {σ : Type} (s : Store σ) (key : CStr) : Store σ :=
  { s with toc := s.toc.unlink key }

/-- `if (!r) r = ls_toc_insert(s, key)`. -/
def lsTocFindOrInsert {σ : Type} (s : Store σ) (key : CStr) : Store σ :=
  match s.find key with
  | none => lsTocInsert s key
  | some _ => s

end Libspill

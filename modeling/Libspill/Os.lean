import Libspill.Lib.Bytes

set_option autoImplicit false

/-!
# The platform floor

What the library asks of the operating system (`os.h`), and what the operating system promises.

* `File`: the store file, a length and a byte at every offset; bytes past the end read as zero.
* `Os`: the calls, over an arbitrary state. Nothing is promised: a call may fail or transfer less
  than was asked.
* `HonestOs`: a call that succeeds did what it was asked, in full; one that fails touched at most
  its own range. `clean` says that no call has failed so far, and a file never reaches past
  `OFF_MAX`, the largest `off_t`.
* `Disk`: a file on which every call within `OFF_MAX` succeeds.
-/

namespace Libspill

/-- The largest `off_t`. -/
def OFF_MAX : ℕ := 2 ^ 63 - 1

/-- The `errno` values the library tells apart. -/
inductive Errno where
  | eintr
  | eio
  | enomem
  | enospc
  | enoent
  | einval
  | efbig
  | other (n : ℕ)
deriving DecidableEq, Repr

/-- Return codes: `LS_OK`, the `LS_ERR_*` conditions, and a negated `errno`. -/
inductive Rc where
  | ok
  | nokey
  | range
  | inval
  | mode
  | backend
  | busy
  | corrupt
  | errno (e : Errno)
deriving DecidableEq, Repr

/-- A file: its length, and its bytes. -/
structure File where
  len : ℕ
  byte : ℕ → UInt8
  past : ∀ i, len ≤ i → byte i = 0

namespace File

/-- The file nothing has been written to. -/
def empty : File := ⟨0, fun _ => 0, fun _ _ => rfl⟩

/-- The bytes a read of `n` at `off` finds: short at the end of the file. -/
def read (f : File) (n off : ℕ) : List UInt8 := slice f.byte off (min n (f.len - off))

/-- Write `b` at `off`, extending the file if it ends past its end. -/
def write (f : File) (off : ℕ) (b : List UInt8) : File where
  len := if b = [] then f.len else max f.len (off + b.length)
  byte := patch f.byte off b
  past i hi := by
    split_ifs at hi with hb
    · subst hb
      rw [patch_nil]
      exact f.past i hi
    · rw [patch_of_ge (by omega)]
      exact f.past i (by omega)

/-- Cut the file, or extend it with zeros, to `n` bytes. -/
def truncate (f : File) (n : ℕ) : File where
  len := n
  byte i := if i < n then f.byte i else 0
  past i hi := if_neg (by omega)

/-- Zero `n` bytes from `off` on, without extending the file. -/
def zero (f : File) (off n : ℕ) : File where
  len := f.len
  byte i := if off ≤ i ∧ i < off + n then 0 else f.byte i
  past i hi := by
    split_ifs
    · rfl
    · exact f.past i hi

/-- What a failed write of `b` at `off` may leave: any of its bytes written or not. -/
def Torn (f : File) (off : ℕ) (b : List UInt8) (f' : File) : Prop :=
  f.len ≤ f'.len ∧ ∀ i, f'.byte i = f.byte i ∨ f'.byte i = patch f.byte off b i

/-- What a refused zeroing may leave: any byte of the range zeroed or not. -/
def HalfZeroed (f : File) (off n : ℕ) (f' : File) : Prop :=
  f'.len = f.len ∧ ∀ i, f'.byte i = f.byte i ∨ (off ≤ i ∧ i < off + n ∧ f'.byte i = 0)

theorem write_len_ge (f : File) (off : ℕ) (b : List UInt8) : f.len ≤ (f.write off b).len := by
  simp only [write]
  split_ifs <;> omega

end File

/-- The calls of the platform floor, and the allocator of the memory tier. -/
class Os (σ : Type) where
  /-- Open the store file, creating it if needed; the answer says whether direct I/O is in force. -/
  openRw : σ → (direct : Bool) → Except Errno Bool × σ
  /-- Read up to `n` bytes at an offset. -/
  pread : σ → (n off : ℕ) → Except Errno (List UInt8) × σ
  /-- Write at an offset; the answer is the number of bytes moved. -/
  pwrite : σ → (b : List UInt8) → (off : ℕ) → Except Errno ℕ × σ
  ftruncate : σ → ℕ → Except Errno Unit × σ
  fileSize : σ → Except Errno ℕ × σ
  /-- Zero a range inside the file without writing it, where the platform can. -/
  zeroRange : σ → (off len : ℕ) → Except Errno Unit × σ
  fsync : σ → Except Errno Unit × σ
  /-- Remove the name of the store file; the next open finds an empty file. -/
  unlink : σ → σ
  /-- Resize a buffer to `n` bytes while the other buffers hold `held`: `none` is `NULL`, and
  `some moved` says whether the buffer is now somewhere else. -/
  realloc : σ → (held n : ℕ) → Option Bool × σ

/-- An operating system whose answers can be believed. -/
class HonestOs (σ : Type) extends Os σ where
  file : σ → File
  /-- No call has failed so far. -/
  clean : σ → Prop
  len_le : ∀ s, (file s).len ≤ OFF_MAX
  openRw_file : ∀ s d, file (openRw s d).2 = file s
  openRw_ok : ∀ s d got, (openRw s d).1 = .ok got → got = true → d = true
  openRw_err : ∀ s d e, (openRw s d).1 = .error e → ¬ clean (openRw s d).2
  openRw_clean : ∀ s d, clean (openRw s d).2 → clean s
  pread_file : ∀ s n off, file (pread s n off).2 = file s
  pread_ok : ∀ s n off b, (pread s n off).1 = .ok b → b = (file s).read n off
  pread_err : ∀ s n off e, (pread s n off).1 = .error e → e ≠ .eintr ∧ ¬ clean (pread s n off).2
  pread_clean : ∀ s n off, clean (pread s n off).2 → clean s
  pwrite_ok : ∀ s b off k, (pwrite s b off).1 = .ok k →
    k = b.length ∧ file (pwrite s b off).2 = (file s).write off b
  pwrite_err : ∀ s b off e, (pwrite s b off).1 = .error e →
    e ≠ .eintr ∧ ¬ clean (pwrite s b off).2 ∧ (file s).Torn off b (file (pwrite s b off).2)
  pwrite_clean : ∀ s b off, clean (pwrite s b off).2 → clean s
  pwrite_len : ∀ s b off, (file (pwrite s b off).2).len ≤ ((file s).write off b).len
  ftruncate_ok : ∀ s n, (ftruncate s n).1 = .ok () → file (ftruncate s n).2 = (file s).truncate n
  ftruncate_err : ∀ s n e, (ftruncate s n).1 = .error e →
    ¬ clean (ftruncate s n).2 ∧ file (ftruncate s n).2 = file s
  ftruncate_clean : ∀ s n, clean (ftruncate s n).2 → clean s
  fileSize_file : ∀ s, file (fileSize s).2 = file s
  fileSize_ok : ∀ s n, (fileSize s).1 = .ok n → n = (file s).len
  fileSize_err : ∀ s e, (fileSize s).1 = .error e → ¬ clean (fileSize s).2
  fileSize_clean : ∀ s, clean (fileSize s).2 → clean s
  zeroRange_ok : ∀ s off n, (zeroRange s off n).1 = .ok () →
    file (zeroRange s off n).2 = (file s).zero off n
  zeroRange_err : ∀ s off n e, (zeroRange s off n).1 = .error e →
    (file s).HalfZeroed off n (file (zeroRange s off n).2)
  zeroRange_clean : ∀ s off n, clean (zeroRange s off n).2 → clean s
  fsync_file : ∀ s, file (fsync s).2 = file s
  fsync_err : ∀ s e, (fsync s).1 = .error e → ¬ clean (fsync s).2
  fsync_clean : ∀ s, clean (fsync s).2 → clean s
  unlink_file : ∀ s, file (unlink s) = File.empty
  unlink_clean : ∀ s, clean (unlink s) → clean s
  realloc_file : ∀ s held n, file (realloc s held n).2 = file s
  realloc_clean : ∀ s held n, clean (realloc s held n).2 → clean s
  realloc_lt : ∀ s held n moved, (realloc s held n).1 = some moved → held + n < 2 ^ 63

/-! ## A file that always answers -/

/-- A file on which every call within `OFF_MAX` succeeds, and `ok` while none was refused. -/
structure Disk where
  file : File
  len_le : file.len ≤ OFF_MAX
  ok : Bool

namespace Disk

/-- The disk before the store file exists. -/
def blank : Disk := ⟨.empty, Nat.zero_le _, true⟩

/-- Refuse a call. -/
def refuse (d : Disk) : Disk := { d with ok := false }

/-- Replace the file, if the new one is not too long. -/
def put (d : Disk) (f : File) : Option Disk :=
  if h : f.len ≤ OFF_MAX then some { d with file := f, len_le := h } else none

instance : Os Disk where
  openRw d direct := (.ok direct, d)
  pread d n off := (.ok (d.file.read n off), d)
  pwrite d b off :=
    match d.put (d.file.write off b) with
    | some d' => (.ok b.length, d')
    | none => (.error .efbig, d.refuse)
  ftruncate d n :=
    match d.put (d.file.truncate n) with
    | some d' => (.ok (), d')
    | none => (.error .efbig, d.refuse)
  fileSize d := (.ok d.file.len, d)
  zeroRange d off n := (.ok (), { d with file := d.file.zero off n, len_le := d.len_le })
  fsync d := (.ok (), d)
  unlink d := { d with file := .empty, len_le := Nat.zero_le _ }
  realloc d held n := (if held + n < 2 ^ 63 then some true else none, d)

theorem put_eq_some {d d' : Disk} {f : File} (h : d.put f = some d') :
    d'.file = f ∧ d'.ok = d.ok := by
  unfold put at h
  split_ifs at h
  cases h
  exact ⟨rfl, rfl⟩

instance : HonestOs Disk where
  file := Disk.file
  clean d := d.ok = true
  len_le := Disk.len_le
  openRw_file _ _ := rfl
  openRw_ok s d got h := by cases h; exact id
  openRw_err s d e h := by cases h
  openRw_clean _ _ h := h
  pread_file _ _ _ := rfl
  pread_ok s n off b h := by cases h; rfl
  pread_err s n off e h := by cases h
  pread_clean _ _ _ h := h
  pwrite_ok s b off k h := by
    simp only [Os.pwrite] at h ⊢
    split at h
    · cases h
      exact ⟨rfl, (put_eq_some (by assumption)).1⟩
    · cases h
  pwrite_err s b off e h := by
    simp only [Os.pwrite] at h ⊢
    split at h
    · cases h
    · cases h
      exact ⟨by decide, by simp [refuse], Nat.le_refl _, fun i => Or.inl rfl⟩
  pwrite_clean s b off h := by
    simp only [Os.pwrite] at h
    split at h
    · rw [← (put_eq_some (by assumption)).2]
      exact h
    · simp [refuse] at h
  pwrite_len s b off := by
    simp only [Os.pwrite]
    split
    · rw [(put_eq_some (by assumption)).1]
    · exact File.write_len_ge _ _ _
  ftruncate_ok s n h := by
    simp only [Os.ftruncate] at h ⊢
    split at h
    · exact (put_eq_some (by assumption)).1
    · cases h
  ftruncate_err s n e h := by
    simp only [Os.ftruncate] at h ⊢
    split at h
    · cases h
    · exact ⟨by simp [refuse], rfl⟩
  ftruncate_clean s n h := by
    simp only [Os.ftruncate] at h
    split at h
    · rw [← (put_eq_some (by assumption)).2]
      exact h
    · simp [refuse] at h
  fileSize_file _ := rfl
  fileSize_ok s n h := by cases h; rfl
  fileSize_err s e h := by cases h
  fileSize_clean _ h := h
  zeroRange_ok _ _ _ _ := rfl
  zeroRange_err s off n e h := by cases h
  zeroRange_clean _ _ _ h := h
  fsync_file _ := rfl
  fsync_err s e h := by cases h
  fsync_clean _ h := h
  unlink_file _ := rfl
  unlink_clean _ h := h
  realloc_file _ _ _ := rfl
  realloc_clean _ _ _ h := h
  realloc_lt s held n moved h := by
    simp only [Os.realloc] at h
    split_ifs at h with hlt
    exact hlt

end Disk

end Libspill

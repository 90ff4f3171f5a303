import Mathlib.Data.BitVec
import Mathlib.Logic.Function.Basic

/-!
# epoll

The event words and the control operations that `ddg/iomanager.cc` uses. The kernel is a
parameter: `Ctl K` is what `epoll_ctl` does to a kernel state of type `K`. `EpollMap` is the
kernel that keeps an interest mask for each registered fd.
-/

namespace Ddg

/-- `uint32_t events` of an `epoll_event`, and the bits of `IOManager::Event`. -/
abbrev Word := BitVec 32

def EPOLLIN : Word := 0x001
def EPOLLOUT : Word := 0x004
def EPOLLERR : Word := 0x008
def EPOLLHUP : Word := 0x010
def EPOLLET : Word := 0x80000000

/-- `w & m` as a condition. -/
def Word.test (w m : Word) : Bool := w &&& m != 0

/-- The number of `READ` and `WRITE` bits of a word. -/
def Word.armed (w : Word) : ℕ := (w.test EPOLLIN).toNat + (w.test EPOLLOUT).toNat

/-- The operation argument of `epoll_ctl`. -/
inductive CtlOp where
  | add | del | mod
  deriving DecidableEq, Repr

/-- `EPOLL_CTL_ADD`, `EPOLL_CTL_DEL` and `EPOLL_CTL_MOD`. -/
def CtlOp.code : CtlOp → Word
  | .add => 1
  | .del => 2
  | .mod => 3

/-- `epoll_ctl(m_epfd, op, fd, &ev)`: whether it returned 0, and the kernel's state after it. -/
abbrev Ctl (K : Type) := K → CtlOp → ℤ → Word → Bool × K

/-- A kernel that keeps the interest mask of each registered fd. -/
abbrev EpollMap := ℤ → Option Word

/-- `ADD` fails if the fd is present, `MOD` and `DEL` fail if it is absent; `ADD` and `MOD` store
the `ev.events` they are given. -/
def EpollMap.ctl : Ctl EpollMap := fun k op fd ev =>
  match op, k fd with
  | .add, none | .mod, some _ => (true, Function.update k fd (some ev))
  | .del, some _ => (true, Function.update k fd none)
  | _, _ => (false, k)

end Ddg

import HttpCallback.Lib.CString

/-!
# Sockets as the code sees them

What `read` and `send` hand back, as inputs of the model. A connection is a list of receive events:
segments of bytes in the order they arrive, and failures. A read takes at most what it asks for from
the segment in front and leaves the rest in the socket; an empty segment is the end of the stream.
What the socket does with the bytes offered to it is a list of send outcomes.
-/

namespace HttpCallback

open CString

/-- The values of `errno` that the code tells apart; `EWOULDBLOCK` is `EAGAIN`. -/
inductive Errno
  | eagain
  | eintr
  | other
  deriving Repr, DecidableEq

/-! ## Receiving -/

inductive ReadEv
  | data (bs : Bytes)
  | fail (e : Errno)
  deriving Repr, DecidableEq

/-- The bytes a `read` of `n` bytes stores. -/
def ReadEv.chunk (n : Nat) : ReadEv → Bytes
  | .data bs => bs.take n
  | .fail _ => []

/-- The result of a `read` of `n` bytes. -/
def ReadEv.ret (n : Nat) : ReadEv → Int
  | .data bs => (bs.take n).length
  | .fail _ => -1

/-- What a `read` of `n` bytes leaves of the segment in front. -/
def ReadEv.left (n : Nat) : ReadEv → List ReadEv
  | .data bs => if bs.length ≤ n then [] else [.data (bs.drop n)]
  | .fail _ => []

def ReadEv.errno : ReadEv → Errno
  | .data _ => .other
  | .fail e => e

/-! ## Sending -/

/-- What a `send` comes to: a count, as far as the offer reaches, or a failure. -/
inductive SendEv
  | sent (n : Nat)
  | fail (e : Errno)
  deriving Repr, DecidableEq

/-- The bytes that the socket takes of the offer `buf`. -/
def SendEv.taken (buf : Bytes) : SendEv → Bytes
  | .sent n => buf.take n
  | .fail _ => []

/-- The result of a `send` of `buf`. -/
def SendEv.ret (buf : Bytes) : SendEv → Int
  | .sent n => (buf.take n).length
  | .fail _ => -1

def SendEv.errno : SendEv → Errno
  | .sent _ => .other
  | .fail e => e

theorem SendEv.taken_prefix (buf : Bytes) (ev : SendEv) : ev.taken buf <+: buf := by
  cases ev with
  | sent n => exact List.take_prefix _ _
  | fail e => exact List.nil_prefix

/-! ## Receiving descriptors -/

/-- A control message: the members of `cmsghdr` and the descriptor behind them. -/
structure Cmsg where
  len : Nat
  level : Int
  type : Int
  fd : Int
  deriving Repr, DecidableEq

/-- `CMSG_LEN(sizeof(int))`. -/
def cmsgLen : Nat := 20

def solSocket : Int := 1

def scmRights : Int := 1

/-- What `recvmsg` comes to: a message with a descriptor, one without, the end of the stream, or a
failure. -/
inductive RecvmsgEv
  | fd (d : Int)
  | plain
  | eof
  | fail (e : Errno)
  deriving Repr, DecidableEq

/-- The result of `recvmsg`. -/
def RecvmsgEv.ret : RecvmsgEv → Int
  | .fd _ => 2
  | .plain => 2
  | .eof => 0
  | .fail _ => -1

def RecvmsgEv.errno : RecvmsgEv → Errno
  | .fail e => e
  | _ => .other

/-- `CMSG_FIRSTHDR` behind the call. A failure leaves `msg_controllen` and the control buffer as
they were, so that `prior`, what the buffer held before, passes for a message. -/
def RecvmsgEv.firstHdr (prior : Cmsg) : RecvmsgEv → Option Cmsg
  | .fd d => some ⟨cmsgLen, solSocket, scmRights, d⟩
  | .plain => none
  | .eof => none
  | .fail _ => some prior

/-- `Sock_fd_read(fd[0], buf, 2, &fd)`: the value stored in `*fd`, or none when the process exits.
-/
def sockFdRead (prior : Cmsg) (ev : RecvmsgEv) : Option Int :=
  match ev.firstHdr prior with
  | none => some (-1)
  | some cmsg =>
    if cmsg.len = cmsgLen then
      if cmsg.level ≠ solSocket then none
      else if cmsg.type ≠ scmRights then none
      else some cmsg.fd
    else some (-1)

end HttpCallback

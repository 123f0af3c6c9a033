import MemoryEncryption.Kernel.Log
import MemoryEncryption.Library.LinkedRing

/-!
# The buffer cache

`bio.c`, with what `log_write` does to a buffer and what the disk driver does for
`iderw`. What runs under `bcache.lock` is one step; a process that waits for a buffer's
sleep lock or for the disk leaves room for others. Each call of `bread` is followed from
`bget` to the end of the `brelse` of its buffer, whichever process makes it; a process
can be in several. The contents of a block are of any type, and each device number is a
disk of its own.
-/

namespace MemoryEncryption

/-- `NBUF`, the buffers of the cache. -/
def nBuf : Nat := maxOpBlocks * 3

/-- `struct buf`, without its links. -/
structure Buf (D : Type) where
  /-- Device number. -/
  dev : Nat
  /-- Block number. -/
  blockno : Nat
  /-- `B_VALID`: the buffer has been read from the disk. -/
  valid : Bool
  /-- `B_DIRTY`: the buffer has to be written to the disk. -/
  dirty : Bool
  /-- The sleep lock is held. -/
  locked : Bool
  /-- The calls that have the buffer or wait for it. -/
  refcnt : Nat
  /-- The contents of the block. -/
  data : D

/-- A node of the list of buffers, where `none` is `bcache.head`. -/
abbrev BufNode := Option (Fin nBuf)

/-- `bcache`. -/
structure Bcache (D : Type) where
  /-- The buffers. -/
  buf : Fin nBuf → Buf D
  /-- The links of the buffers and of `head`. -/
  links : Links BufNode

namespace Bcache

variable {D : Type}

/-- Replace a buffer. -/
def set (s : Bcache D) (b : Fin nBuf) (buf : Buf D) : Bcache D :=
  { s with buf := Function.update s.buf b buf }

/-- `binit`, where the buffers are still zero. -/
def binit (zero : D) : Bcache D where
  buf := fun _ => ⟨0, 0, false, false, false, 0, zero⟩
  links := (List.finRange nBuf).foldl (fun links b => links.push none (some b))
    ⟨fun _ => none, fun _ => none⟩

/-- A test of a buffer, as one of a node. -/
def onBuf (s : Bcache D) (test : Buf D → Bool) : BufNode → Bool
  | none => false
  | some b => test (s.buf b)

/-- The search for the block, from the most recently used buffer. -/
def cachedBuf (s : Bcache D) (dev blockno : Nat) : Except Halt (Option BufNode) :=
  Links.walk .endless none s.links.next
    (s.onBuf fun b => decide (b.dev = dev ∧ b.blockno = blockno)) (nBuf + 1) (s.links.next none)

/-- The search for an unused buffer, from the least recently used one. -/
def unusedBuf (s : Bcache D) : Except Halt (Option BufNode) :=
  Links.walk .endless none s.links.prev
    (s.onBuf fun b => decide (b.refcnt = 0 ∧ b.dirty = false)) (nBuf + 1) (s.links.prev none)

/-- `bget` up to its `acquiresleep`. -/
def bget (s : Bcache D) (dev blockno : Nat) : Except Halt (Fin nBuf × Bcache D) := do
  match ← s.cachedBuf dev blockno with
  | some (some b) => pure (b, s.set b { s.buf b with refcnt := (s.buf b).refcnt + 1 })
  | _ => do
    match ← s.unusedBuf with
    | some (some b) =>
      pure (b, s.set b { s.buf b with dev, blockno, valid := false, dirty := false, refcnt := 1 })
    | _ => .error (.panic "bget: no buffers")

/-- The part of `brelse` under `bcache.lock`. -/
def brelse (s : Bcache D) (b : Fin nBuf) : Bcache D :=
  let s := s.set b { s.buf b with refcnt := (s.buf b).refcnt - 1 }
  if (s.buf b).refcnt = 0 then { s with links := (s.links.unlink (some b)).push none (some b) }
  else s

end Bcache

/-- Where a call of `bread` is. -/
inductive BufStage where
  /-- Not begun, or ended. -/
  | idle
  /-- In `bget`, waiting for the sleep lock of the buffer. -/
  | waiting (b : Fin nBuf)
  /-- In `iderw`, waiting for the disk. -/
  | transferring (b : Fin nBuf)
  /-- The caller has the buffer, with or without a modification that it has not passed to
  `log_write` or `bwrite` yet. -/
  | holding (b : Fin nBuf) (changed : Bool)
  /-- In `brelse`, after `releasesleep`. -/
  | leaving (b : Fin nBuf)
  deriving DecidableEq, Repr

/-- The buffer cache, the disks, and the calls of `bread`. -/
structure Bio (calls : Nat) (D : Type) where
  /-- The buffer cache. -/
  bcache : Bcache D
  /-- The blocks of the disks, by device and block number. -/
  disk : Nat → Nat → D
  /-- Where the calls are. -/
  stage : Fin calls → BufStage
  /-- The arguments of the calls. -/
  request : Fin calls → Nat × Nat

/-- What happens. -/
inductive BufEvent (calls : Nat) (D : Type) where
  /-- A call of `bread` begins, up to `acquiresleep`. -/
  | bread (c : Fin calls) (dev blockno : Nat)
  /-- `acquiresleep` in `bget` returns, and `bread` returns or starts `iderw`. -/
  | acquiresleep (c : Fin calls)
  /-- `ideintr` ends the transfer that `iderw` waits for. -/
  | ideintr (c : Fin calls)
  /-- The caller changes the data of its buffer. -/
  | modify (c : Fin calls) (data : D)
  /-- `log_write`. -/
  | logWrite (c : Fin calls)
  /-- `bwrite` up to the transfer. -/
  | bwrite (c : Fin calls)
  /-- `brelse` up to `releasesleep`. -/
  | releasesleep (c : Fin calls)
  /-- The rest of `brelse`. -/
  | brelse (c : Fin calls)

namespace Bio

variable {calls : Nat} {D : Type}

/-- The state after boot. -/
def boot (zero : D) (disk : Nat → Nat → D) : Bio calls D where
  bcache := .binit zero
  disk := disk
  stage := fun _ => .idle
  request := fun _ => (0, 0)

/-- A call goes on with a buffer. -/
def go (s : Bio calls D) (c : Fin calls) (stage : BufStage) (b : Fin nBuf) (buf : Buf D) :
    Bio calls D :=
  { s with bcache := s.bcache.set b buf
           stage := Function.update s.stage c stage }

/-- What `ideintr` does with the buffer at the head of its queue. -/
def ideintr (s : Bio calls D) (c : Fin calls) (b : Fin nBuf) : Bio calls D :=
  let buf := s.bcache.buf b
  if buf.dirty then
    { s.go c (.holding b false) b { buf with valid := true, dirty := false } with
      disk := Function.update s.disk buf.dev
        (Function.update (s.disk buf.dev) buf.blockno buf.data) }
  else
    s.go c (.holding b false) b
      { buf with valid := true, dirty := false, data := s.disk buf.dev buf.blockno }

/-- One step. A call that is not where the event is, or has to wait, does not take it. -/
def step (s : Bio calls D) : BufEvent calls D → Except Halt (Bio calls D)
  | .bread c dev blockno =>
    match s.stage c with
    | .idle => do
      let (b, bcache) ← s.bcache.bget dev blockno
      pure { s with bcache
                    stage := Function.update s.stage c (.waiting b)
                    request := Function.update s.request c (dev, blockno) }
    | _ => .error .endless
  | .acquiresleep c =>
    match s.stage c with
    | .waiting b =>
      let buf := s.bcache.buf b
      if buf.locked then .error .endless
      else if buf.valid then .ok (s.go c (.holding b false) b { buf with locked := true })
      else .ok (s.go c (.transferring b) b { buf with locked := true })
    | _ => .error .endless
  | .ideintr c =>
    match s.stage c with
    | .transferring b => .ok (s.ideintr c b)
    | _ => .error .endless
  | .modify c data =>
    match s.stage c with
    | .holding b _ => .ok (s.go c (.holding b true) b { s.bcache.buf b with data })
    | _ => .error .endless
  | .logWrite c =>
    match s.stage c with
    | .holding b _ => .ok (s.go c (.holding b false) b { s.bcache.buf b with dirty := true })
    | _ => .error .endless
  | .bwrite c =>
    match s.stage c with
    | .holding b _ => .ok (s.go c (.transferring b) b { s.bcache.buf b with dirty := true })
    | _ => .error (.panic "bwrite")
  | .releasesleep c =>
    match s.stage c with
    | .holding b _ => .ok (s.go c (.leaving b) b { s.bcache.buf b with locked := false })
    | _ => .error (.panic "brelse")
  | .brelse c =>
    match s.stage c with
    | .leaving b =>
      .ok { s with bcache := s.bcache.brelse b, stage := Function.update s.stage c .idle }
    | _ => .error .endless

end Bio

end MemoryEncryption

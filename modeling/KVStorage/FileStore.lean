import KVStorage.FileRegions
import KVStorage.Requests
import KVStorage.Library.Transducer

/-!
# The store over the bytes of its file

The program as `main` starts it on a data file: every block and the tables of block 0 are
bytes of that file, and the read cache is the list that `deserialize` links. Requests come
one after the other, each with its IO task done, and the process may end between two of
them, by SIGINT or without it.
-/

namespace KVStorage

set_option autoImplicit false

open Transducer

/-- The order in which the hash map of the message gives its entries. -/
structure Iteration where
  order : List (Int32 × SizeT) → List (Int32 × SizeT)
  perm : ∀ entries, (order entries).Perm entries

/-- What a start of the program finds in the clock, as `asctime` gives it, and in the sizes
that no constructor sets. -/
structure Boot where
  createTime : Bytes
  utf8 : ValidUtf8 createTime
  length : createTime.length = FileInfo.timeLength
  /-- `serializedSize` of the tables. -/
  infoSize : SizeT
  /-- `serializedSize` of the list in the read cache. -/
  listSize : SizeT

inductive FileRequest where
  | put (key : Int32) (value : Bytes) (flips : Fin level → Bool)
  | get (key : Int32)
  | del (key : Int32)
  /-- `signalHandler`, then a new process. -/
  | restart (iteration : Iteration) (boot : Boot)
  /-- The process dies, then a new one. -/
  | crash (boot : Boot)

/-- `serializedSize` after `deserialize`. -/
def Skiplist.sizeRead (serializedSize : SizeT) (file : Option Bytes) (offset : SizeT) : SizeT :=
  match file with
  | none => serializedSize
  | some bytes => announced serializedSize (if Seekable offset then (bytes.drop offset.toNat).take 8 else [])

structure FileStore where
  fi : FileInfo
  write : Cache
  read : ReadCache
  listSize : SizeT
  /-- The file, if the streams open it. -/
  file : Option Bytes

namespace FileStore

/-- The start of `main` on a file. -/
def boot (file : Option Bytes) (b : Boot) : Option FileStore :=
  match (FileInfo.new b.createTime).readFile b.infoSize file with
  | .returned fi _ => some ⟨fi, Cache.new, ⟨0, Skiplist.new, noBlock⟩, b.listSize, file⟩
  | .threw => none
  | .undefined => none

/-- `flushToDisk` on the write cache. -/
def flush (f : FileStore) (freeSpace freeBlock : SizeT) : FileStore :=
  let r := f.write.flushToFile f.fi f.file freeSpace freeBlock
  { f with write := r.1, fi := r.2.1, file := r.2.2.1 }

/-- An IO worker runs the flush that a put submitted. -/
def runTask (f : FileStore) : Option FlushTask → FileStore
  | none => f
  | some task => f.flush task.freeSpace task.freeBlock

/-- `loadFromDisk` on the read cache. -/
def load (f : FileStore) (block : SizeT) : Option FileStore :=
  match f.read.loadFromDisk f.listSize f.file block with
  | .returned read _ =>
    some { f with
      read := read
      listSize := if block = noBlock then f.listSize
        else Skiplist.sizeRead f.listSize f.file (block * CACHE_SIZE) }
  | .threw => none
  | .undefined => none

/-- `delhander` on the read cache. -/
def delhander (f : FileStore) (key : Int32) (block : SizeT) : Option FileStore :=
  (f.read.RWcache.erase key).map fun r =>
    match r.2 with
    | none => { f with read := { f.read with RWcache := r.1 } }
    | some nodeSize =>
      { f with
        read := { f.read with RWcache := r.1, currentSize := f.read.currentSize - nodeSize }
        fi := f.fi.updateBlockInfo block nodeSize }

def processPutRequests (f : FileStore) (key : Int32) (value : Bytes) (flips : Fin level → Bool) : FileStore :=
  let r := f.write.put f.fi key value flips
  { f with write := r.1, fi := r.2.1 }.runTask r.2.2

/-- With the value that was found, or "". -/
def processGetRequests (f : FileStore) (key : Int32) : Option (FileStore × Bytes) :=
  let value := f.write.getWrite key
  if value = [] then
    (f.read.get f.fi key).bind fun
      | (read, .value data) => some ({ f with read := read }, data)
      | (read, .load block) => ({ f with read := read }.load block).bind fun f =>
        (f.read.RWcache.search key).map fun data => (f, data)
  else some (f, value)

/-- `del` with flag 1. -/
def delRead (f : FileStore) (key : Int32) : Option FileStore :=
  let blockNumber := f.fi.getBlockNumber key
  if blockNumber ≠ noBlock then
    if blockNumber ≠ f.read.currentReadBlock then
      ({ f with read := { f.read with currentReadBlock := blockNumber } }.delhander key blockNumber).bind fun f =>
        (f.load blockNumber).bind fun f => f.delhander key blockNumber
    else f.delhander key blockNumber
  else some f

def processDelRequests (f : FileStore) (key : Int32) : Option FileStore :=
  let r := f.write.delWrite f.fi key
  let f := { f with write := r.1, fi := r.2.1 }
  if r.2.2 then some f else f.delRead key

/-- `signalHandler` once the pool is down. -/
def signalHandler (f : FileStore) (iteration : Iteration) : FileStore :=
  let freeBlock := f.fi.getFreeBlock
  let f := { f with fi := freeBlock.1 }.flush (CACHE_SIZE - f.write.currentSize) freeBlock.2
  let r := f.fi.writeFile (iteration.order f.fi.keyBlockMap.entries) f.file
  { f with fi := r.1, file := r.2 }

/-- One request, and what a GET finds. The program dies of an exception and of undefined
behaviour. -/
def serve (f : FileStore) : FileRequest → Option (FileStore × Option Bytes)
  | .put key value flips => some (f.processPutRequests key value flips, none)
  | .get key => (f.processGetRequests key).map fun r => (r.1, some r.2)
  | .del key => (f.processDelRequests key).map fun f => (f, none)
  | .restart iteration b => (boot (f.signalHandler iteration).file b).map fun f => (f, none)
  | .crash b => (boot f.file b).map fun f => (f, none)

end FileStore

/-! ## The same requests on stored maps -/

namespace Store

def serve (s : Store) : FileRequest → Option (Store × Option Bytes)
  | .put key value flips => some (s.processPutRequests key value flips, none)
  | .get key => some ((s.processGetRequests key).1, some (s.processGetRequests key).2)
  | .del key => some (s.processDelRequests key, none)
  | .restart _ b => (s.signalHandler.reload b.createTime).map fun s => (s, none)
  | .crash b => (s.reload b.createTime).map fun s => (s, none)

/-- A flush finds a free block and stays inside it, and a start does not read a size beyond
`max_size` out of nothing. -/
def Persists (s : Store) : FileRequest → Prop
  | .put key value flips => ∀ task ∈ (s.write.put s.fi key value flips).2.2,
      task.freeBlock ≠ noBlock ∧ (s.write.RWcache.contents.add key value).Placeable
  | .get _ => True
  | .del _ => True
  | .restart _ b => (s.fi.getFreeBlock.2 ≠ noBlock → s.write.RWcache.contents.Placeable) ∧
      b.infoSize.toNat ≤ maxVector
  | .crash b => b.infoSize.toNat ≤ maxVector

instance : ∀ (s : Store) (r : FileRequest), Decidable (s.Persists r)
  | s, .put key value flips => inferInstanceAs (Decidable (∀ task ∈ (s.write.put s.fi key value flips).2.2,
      task.freeBlock ≠ noBlock ∧ (s.write.RWcache.contents.add key value).Placeable))
  | _, .get _ => isTrue trivial
  | _, .del _ => isTrue trivial
  | s, .restart _ b => inferInstanceAs (Decidable ((s.fi.getFreeBlock.2 ≠ noBlock →
      s.write.RWcache.contents.Placeable) ∧ b.infoSize.toNat ≤ maxVector))
  | _, .crash b => inferInstanceAs (Decidable (b.infoSize.toNat ≤ maxVector))

end Store

end KVStorage

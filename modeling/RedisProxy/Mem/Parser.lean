/-
  RedisProxy.Mem.Parser — the command parser over the heap (buffer_reader.cpp, utils.cpp,
  cmd.h, cmd.cpp).

  The functions are those of `Wire.Parser`, with the buffers they make: `tmpBuffer` is a
  copy of the input for the length of a call, a token is a slice of the input's block, an
  argument is a copy of the token, a line of a reply is copied to `resp`. What is destroyed
  at the end of its scope is destroyed here.

  `atoi` reads the block to its end, whatever the bytes behind `size_` are, and `far` after
  that. `argv_` is a vector: when it is full, `push_back` copies every element and then
  destroys the old ones.
-/

import RedisProxy.Mem.Contents
import RedisProxy.Wire.Parser

namespace RedisProxy.Mem

open Lib.Cells Lib.Decimal Wire

/-! ## Cmd -/

structure Cmd where
  argv : List Buffer
  /-- `argv_.capacity()`. -/
  room : Nat
  deriving DecidableEq, Repr

namespace Heap

/-- Copies of buffers made, one after another. -/
def acquires (h : Heap) (bs : List Buffer) : Heap := bs.foldl (fun h b => h.acquire b.data) h

/-- Buffers destroyed, one after another. -/
def releases (h : Heap) (bs : List Buffer) : Heap := bs.foldl (fun h b => h.release b.data) h

end Heap

namespace Cmd

def empty : Cmd := ⟨[], 0⟩

/-- `AppendArg`: `argv_.push_back(arg)`. -/
def appendArg (h : Heap) (c : Cmd) (arg : Buffer) : Heap × Cmd :=
  let h := (Buffer.copy h arg).1
  if c.argv.length < c.room then (h, { c with argv := c.argv ++ [arg] })
  else ((h.acquires c.argv).releases c.argv, ⟨c.argv ++ [arg], max 1 (2 * c.argv.length)⟩)

/-- `Reset()`: `argv_.clear()`. -/
def reset (h : Heap) (c : Cmd) : Heap × Cmd := (h.releases c.argv, { c with argv := [] })

/-- The bytes of the arguments. -/
def view (h : Heap) (c : Cmd) : Wire.Cmd := c.argv.map (Buffer.contents h)

end Cmd

/-! ## BufferReader -/

namespace BufferReader

def eof (input : Buffer) (o : Nat) : Bool := input.used ≤ o

/-- `Buffer tmpBuffer( buffer_ ); tmpBuffer.Offset( offset_ )`. -/
def tmpBuffer (h : Heap) (input : Buffer) (o : Nat) : Heap × Buffer :=
  ((Buffer.copy h input).1, (Buffer.copy h input).2.offsetBy (int32 o) 0)

/-- What a read that has found its bytes ends with. -/
def take (h : Heap) (tmp dst : Buffer) (o i : Nat) : Error × Heap × Buffer × Nat :=
  match dst.append h tmp i with
  | (.ok, h, dst) => (.ok, tmp.destroy h, dst, o + i)
  | (e, h, dst) => (e, tmp.destroy h, dst, o)

/-- `ReadUntil(buffer, ch, extend)`. -/
def readUntil (h : Heap) (input : Buffer) (o : Nat) (dst : Buffer) (ch : Byte) (extend : Nat) :
    Error × Heap × Buffer × Nat :=
  if eof input o then (.outOfBound, h, dst, o)
  else
    match tmpBuffer h input o with
    | (h, tmp) =>
      match memchr (tmp.contents h) ch with
      | none => (.notFound, tmp.destroy h, dst, o)
      | some i => take h tmp dst o (i + extend)

/-- `ReadUntil(buffer, chs)`. -/
def readUntilAny (h : Heap) (input : Buffer) (o : Nat) (dst : Buffer) (chs : List Byte) :
    Error × Heap × Buffer × Nat :=
  if eof input o then (.outOfBound, h, dst, o)
  else
    match tmpBuffer h input o with
    | (h, tmp) =>
      match chs.findSome? (memchr (tmp.contents h)) with
      | none => (.notFound, tmp.destroy h, dst, o)
      | some i => take h tmp dst o i

def read (h : Heap) (input : Buffer) (o : Nat) (dst : Buffer) (length : Nat) : Error × Heap × Buffer × Nat :=
  if eof input o then (.outOfBound, h, dst, o)
  else if input.used - o < length then (.outOfBound, h, dst, o)
  else
    match tmpBuffer h input o with
    | (h, tmp) => take h tmp dst o length

/-- `Next(1)`. -/
def next (input : Buffer) (o : Nat) : Nat := if eof input o then o else o + 1

def current (h : Heap) (input : Buffer) (o : Nat) : Byte :=
  if eof input o then 0 else (input.contents h).getD o 0

def last (h : Heap) (input : Buffer) (o : Nat) : Byte :=
  if o = 0 then 0 else (input.contents h).getD (o - 1) 0

end BufferReader

/-- From a byte of the buffer to the end of its block. -/
def Buffer.memory (h : Heap) (b : Buffer) (start : Nat) : Bytes :=
  match b.data with
  | none => []
  | some a => cells (h.cellsAt a) (b.offset + start) (h.refSize a - (b.offset + start))

/-- `ParseInt32`; `far` is what lies behind the block. -/
def parseInt32 (h : Heap) (b : Buffer) (start : Nat) (far : Bytes) : Int :=
  if b.used ≤ start then 0 else atoi (b.memory h start ++ far)

/-! ## Inline -/

namespace InlineParser

/-- The loop of `HandleRequest`, `buf` its buffer. -/
def requestLoop (input : Buffer) : Nat → Heap → Cmd → Nat → Buffer → Error × Heap × Cmd × Nat
  | 0, h, cmd, o, buf => (.tryAgain, buf.destroy h, cmd, o)
  | n + 1, h, cmd, o, buf =>
    match BufferReader.readUntilAny h input o buf splitSign with
    | (.ok, h, buf, o) =>
      if BufferReader.current h input o = LF then
        let buf := if BufferReader.last h input o = CR then buf.offsetBy 0 (-1) else buf
        let (h, cmd) := cmd.appendArg h buf
        (.ok, buf.destroy h, cmd, BufferReader.next input o)
      else
        let (h, cmd) := cmd.appendArg h buf
        requestLoop input n (buf.clear h).1 cmd (BufferReader.next input o) (buf.clear h).2
    | (.notFound, h, buf, o) => (.tryAgain, buf.destroy h, cmd, o)
    | (e, h, buf, o) => (e, buf.destroy h, cmd, o)

def handleRequest (h : Heap) (input : Buffer) (o : Nat) (cmd : Cmd) : Error × Heap × Cmd × Nat :=
  requestLoop input (input.used + 1) h cmd o .null

def handleResponse (h : Heap) (input : Buffer) (o : Nat) (buf : Buffer) : Error × Heap × Buffer × Nat :=
  match BufferReader.readUntil h input o buf LF 1 with
  | (.notFound, h, buf, o) => (.tryAgain, h, buf, o)
  | (_, h, buf, o) => (.ok, h, buf, o)

end InlineParser

/-! ## Multibulk -/

namespace MultibulkParser

open Wire.MultibulkParser (readSize)

/-- What `readInt32` appends the line to; an error of that is dropped. -/
def appendLine (h : Heap) (buf : Buffer) : Option Buffer → Heap × Option Buffer
  | none => (h, none)
  | some p => ((p.appendBytes h (buf.contents h)).2.1, some (p.appendBytes h (buf.contents h)).2.2)

def readInt32 (far : Bytes) (i : Int) (h : Heap) (input : Buffer) (o : Nat) (pbuf : Option Buffer) :
    Error × Int × Option Buffer × Heap × Nat :=
  match BufferReader.readUntil h input o .null LF 1 with
  | (.ok, h, buf, o) =>
    let (h, pbuf) := appendLine h buf pbuf
    (.ok, parseInt32 h buf 1 far, pbuf, buf.destroy h, o)
  | (.notFound, h, buf, o) => (.tryAgain, i, pbuf, buf.destroy h, o)
  | (e, h, buf, o) => (e, i, pbuf, buf.destroy h, o)

def readLen (far : Bytes) (i : Int) (h : Heap) (input : Buffer) (o : Nat) (pbuf : Option Buffer) :
    Error × Int × Option Buffer × Heap × Nat :=
  if i = 0 then readInt32 far i h input o pbuf else (.ok, i, pbuf, h, o)

def requestLoop (far : Bytes) (input : Buffer) : Nat → Wire.MultibulkParser → Heap → Cmd → Nat →
    Error × Wire.MultibulkParser × Heap × Cmd × Nat
  | 0, m, h, cmd, o => (.ok, m, h, cmd, o)
  | n + 1, m, h, cmd, o =>
    match readLen far m.bulkLen h input o none with
    | (.ok, len, _, h, o) =>
      match BufferReader.read h input o .null (readSize len) with
      | (.ok, h, buf, o) =>
        let buf := buf.offsetBy 0 (-2)
        let (h, cmd) := cmd.appendArg h buf
        requestLoop far input n { m with multibulkIndex := m.multibulkIndex + 1, bulkLen := 0 }
          (buf.destroy h) cmd o
      | (.outOfBound, h, buf, o) => (.tryAgain, { m with bulkLen := len }, buf.destroy h, cmd, o)
      | (e, h, buf, o) => (e, { m with bulkLen := len }, buf.destroy h, cmd, o)
    | (e, len, _, h, o) => (e, { m with bulkLen := len }, h, cmd, o)

def handleRequest (far : Bytes) (m : Wire.MultibulkParser) (h : Heap) (input : Buffer) (o : Nat) (cmd : Cmd) :
    Error × Wire.MultibulkParser × Heap × Cmd × Nat :=
  match readLen far m.multibulkLen h input o none with
  | (.ok, len, _, h, o) =>
    requestLoop far input (len - m.multibulkIndex).toNat { m with multibulkLen := len } h cmd o
  | (e, len, _, h, o) => (e, { m with multibulkLen := len }, h, cmd, o)

def responseLoop (far : Bytes) (input : Buffer) : Nat → Wire.MultibulkParser → Heap → Buffer → Nat →
    Error × Wire.MultibulkParser × Heap × Buffer × Nat
  | 0, m, h, pbuf, o => (.ok, m, h, pbuf, o)
  | n + 1, m, h, pbuf, o =>
    match readLen far m.bulkLen h input o (some pbuf) with
    | (.ok, len, pb, h, o) =>
      let pbuf := pb.getD pbuf
      if m.bulkLen = 0 ∧ len ≤ 0 then
        responseLoop far input n { m with multibulkIndex := m.multibulkIndex + 1, bulkLen := 0 } h pbuf o
      else
        match BufferReader.read h input o pbuf (readSize len) with
        | (.ok, h, pbuf, o) =>
          responseLoop far input n { m with multibulkIndex := m.multibulkIndex + 1, bulkLen := 0 } h pbuf o
        | (.outOfBound, h, pbuf, o) => (.tryAgain, { m with bulkLen := len }, h, pbuf, o)
        | (e, h, pbuf, o) => (e, { m with bulkLen := len }, h, pbuf, o)
    | (e, len, pb, h, o) => (e, { m with bulkLen := len }, h, pb.getD pbuf, o)

def readCount (far : Bytes) (m : Wire.MultibulkParser) (h : Heap) (input : Buffer) (o : Nat) (pbuf : Buffer) :
    Error × Int × Option Buffer × Heap × Nat :=
  if m.multibulkLen = 0 then
    if BufferReader.current h input o = 42 then readInt32 far m.multibulkLen h input o (some pbuf)
    else (.ok, 1, some pbuf, h, o)
  else (.ok, m.multibulkLen, some pbuf, h, o)

def handleResponse (far : Bytes) (m : Wire.MultibulkParser) (h : Heap) (input : Buffer) (o : Nat) (pbuf : Buffer) :
    Error × Wire.MultibulkParser × Heap × Buffer × Nat :=
  match readCount far m h input o pbuf with
  | (.ok, len, pb, h, o) =>
    responseLoop far input (len - m.multibulkIndex).toNat { m with multibulkLen := len } h (pb.getD pbuf) o
  | (e, len, pb, h, o) => (e, { m with multibulkLen := len }, h, pb.getD pbuf, o)

end MultibulkParser

/-! ## CmdParser -/

structure CmdParser where
  parseType : ParseType
  multibulkParser : Wire.MultibulkParser
  inputb : Buffer
  inputbr : Nat
  deriving DecidableEq, Repr

namespace CmdParser

open BufferReader

def init : CmdParser := ⟨.none, .reset, .null, 0⟩

/-- `Reset()`. -/
def reset (p : CmdParser) : CmdParser := { p with parseType := .none, multibulkParser := .reset }

/-- The end of both `Parse…`. -/
def handOver (p : CmdParser) (o : Nat) : CmdParser :=
  if p.inputbr = o then p else { p with inputb := p.inputb.offsetBy (int32 o) 0, inputbr := 0 }

def parseRequest (far : Bytes) (h : Heap) (p : CmdParser) (cmd : Cmd) : Error × Heap × CmdParser × Cmd :=
  if eof p.inputb p.inputbr then (.tryAgain, h, p, cmd)
  else
    let type := if p.parseType = .none then
        (if current h p.inputb p.inputbr = 42 then .multibulk else .inline)
      else p.parseType
    let p := { p with parseType := type }
    if type = .multibulk then
      let (e, m, h, cmd, o) := MultibulkParser.handleRequest far p.multibulkParser h p.inputb p.inputbr cmd
      (e, h, { p with multibulkParser := m }.handOver o, cmd)
    else
      let (e, h, cmd, o) := InlineParser.handleRequest h p.inputb p.inputbr cmd
      (e, h, p.handOver o, cmd)

def parseResponse (far : Bytes) (h : Heap) (p : CmdParser) (resp : Buffer) : Error × Heap × CmdParser × Buffer :=
  if eof p.inputb p.inputbr then (.tryAgain, h, p, resp)
  else
    let type := if p.parseType = .none then Wire.CmdParser.responseType (current h p.inputb p.inputbr)
      else p.parseType
    if type = .none then (.unknown, h, p, resp)
    else
      let p := { p with parseType := type }
      if type = .multibulk then
        let (e, m, h, resp, o) := MultibulkParser.handleResponse far p.multibulkParser h p.inputb p.inputbr resp
        (e, h, { p with multibulkParser := m }.handOver o, resp)
      else
        let (e, h, resp, o) := InlineParser.handleResponse h p.inputb p.inputbr resp
        (e, h, p.handOver o, resp)

/-- What `Wire.CmdParser` has of it. -/
def view (h : Heap) (p : CmdParser) : Wire.CmdParser :=
  ⟨p.parseType, p.multibulkParser, p.inputb.contents h, p.inputbr⟩

end CmdParser

end RedisProxy.Mem

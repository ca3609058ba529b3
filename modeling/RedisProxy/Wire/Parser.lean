/-
  RedisProxy.Wire.Parser — the command parser (cmd.h, cmd.cpp): inline and multibulk
  requests, replies, and the RESP2 encoder.

  A command is its arguments' contents. The parser keeps its counters and the unread
  input between calls; a call that meets the end of the input leaves by one of three
  errors (`TryAgain`, `OutOfBound`, or `NotFound` translated to `TryAgain`), and which
  one depends on the call site. `beyond` is the memory behind the input
  (`Wire.Buffer`).

  The `for` loops run on the number of rounds left; the inline loop on fuel, which the
  length of the input bounds (`InlineParser.requestLoop_enough`).
-/

import RedisProxy.Wire.Buffer

namespace RedisProxy.Wire

open Lib.Decimal

abbrev Cmd := List Bytes

/-- One argument, as `FormatRESP2`'s loop appends it. -/
def Cmd.formatArg (buffer arg : Bytes) : Bytes :=
  buffer ++ 36 :: decimal arg.length ++ [CR, LF] ++ arg ++ [CR, LF]

def Cmd.formatRESP2 (argv : Cmd) (buffer : Bytes) : Bytes :=
  argv.foldl Cmd.formatArg (buffer ++ 42 :: decimal argv.length ++ [CR, LF])

/-! ## Inline -/

/-- `kSplitSign`, in the order it is filled. -/
def splitSign : List Byte := [32, LF]

namespace InlineParser

def requestLoop : Nat → Cmd → BufferReader → Error × Cmd × BufferReader
  | 0, cmd, r => (.tryAgain, cmd, r)
  | n + 1, cmd, r =>
    match r.readUntilAny [] splitSign with
    | (.ok, buf, r) =>
      if r.current = LF then
        (.ok, cmd ++ [if r.last = CR then Buffer.trim buf 1 else buf], r.next)
      else requestLoop n (cmd ++ [buf]) r.next
    | (.notFound, _, r) => (.tryAgain, cmd, r)
    | (e, _, r) => (e, cmd, r)

def handleRequest (cmd : Cmd) (r : BufferReader) : Error × Cmd × BufferReader :=
  requestLoop (r.buffer.length + 1) cmd r

def handleResponse (buf : Bytes) (r : BufferReader) : Error × Bytes × BufferReader :=
  match r.readUntil buf LF 1 with
  | (.notFound, buf, r) => (.tryAgain, buf, r)
  | (_, buf, r) => (.ok, buf, r)

end InlineParser

/-! ## Multibulk -/

structure MultibulkParser where
  multibulkLen : Int
  multibulkIndex : Int
  bulkLen : Int
  deriving DecidableEq, Repr

namespace MultibulkParser

/-- `Reset()`, and the constructor. -/
def reset : MultibulkParser := ⟨0, 0, 0⟩

/-- Reads one line; `i` is the integer to set, `pbuf` what the line is appended to (none
    for a null pointer). -/
def readInt32 (beyond : Bytes) (i : Int) (r : BufferReader) (pbuf : Option Bytes) :
    Error × Int × Option Bytes × BufferReader :=
  match r.readUntil [] LF 1 with
  | (.ok, line, r) => (.ok, parseInt32 line 1 (r.buffer.drop r.offset ++ beyond), pbuf.map (· ++ line), r)
  | (.notFound, _, r) => (.tryAgain, i, pbuf, r)
  | (e, _, r) => (e, i, pbuf, r)

/-- A count or length that is 0 has not been read yet. -/
def readLen (beyond : Bytes) (i : Int) (r : BufferReader) (pbuf : Option Bytes) :
    Error × Int × Option Bytes × BufferReader :=
  if i = 0 then readInt32 beyond i r pbuf else (.ok, i, pbuf, r)

/-- `bulkLen_ + 2` in int32, as the `std::size_t` that `Read` takes. -/
def readSize (bulkLen : Int) : Nat := sizeT (int32 (bulkLen + 2))

def requestLoop (beyond : Bytes) : Nat → MultibulkParser → Cmd → BufferReader →
    Error × MultibulkParser × Cmd × BufferReader
  | 0, m, cmd, r => (.ok, m, cmd, r)
  | n + 1, m, cmd, r =>
    match readLen beyond m.bulkLen r none with
    | (.ok, len, _, r) =>
      match r.read [] (readSize len) with
      | (.ok, buf, r) =>
        requestLoop beyond n { m with multibulkIndex := m.multibulkIndex + 1, bulkLen := 0 }
          (cmd ++ [Buffer.trim buf 2]) r
      | (.outOfBound, _, r) => (.tryAgain, { m with bulkLen := len }, cmd, r)
      | (e, _, r) => (e, { m with bulkLen := len }, cmd, r)
    | (e, len, _, r) => (e, { m with bulkLen := len }, cmd, r)

def handleRequest (beyond : Bytes) (m : MultibulkParser) (cmd : Cmd) (r : BufferReader) :
    Error × MultibulkParser × Cmd × BufferReader :=
  match readLen beyond m.multibulkLen r none with
  | (.ok, len, _, r) => requestLoop beyond (len - m.multibulkIndex).toNat { m with multibulkLen := len } cmd r
  | (e, len, _, r) => (e, { m with multibulkLen := len }, cmd, r)

def responseLoop (beyond : Bytes) : Nat → MultibulkParser → Bytes → BufferReader →
    Error × MultibulkParser × Bytes × BufferReader
  | 0, m, pbuf, r => (.ok, m, pbuf, r)
  | n + 1, m, pbuf, r =>
    match readLen beyond m.bulkLen r (some pbuf) with
    | (.ok, len, pb, r) =>
      let pbuf := pb.getD pbuf
      -- a length read just now and not positive ends the round; one left from an earlier call is tried
      if m.bulkLen = 0 ∧ len ≤ 0 then
        responseLoop beyond n { m with multibulkIndex := m.multibulkIndex + 1, bulkLen := 0 } pbuf r
      else
        match r.read pbuf (readSize len) with
        | (.ok, pbuf, r) =>
          responseLoop beyond n { m with multibulkIndex := m.multibulkIndex + 1, bulkLen := 0 } pbuf r
        | (.outOfBound, pbuf, r) => (.tryAgain, { m with bulkLen := len }, pbuf, r)
        | (e, pbuf, r) => (e, { m with bulkLen := len }, pbuf, r)
    | (e, len, pb, r) => (e, { m with bulkLen := len }, pb.getD pbuf, r)

/-- The count of the reply: an array's own, 1 for anything else. -/
def readCount (beyond : Bytes) (m : MultibulkParser) (pbuf : Bytes) (r : BufferReader) :
    Error × Int × Option Bytes × BufferReader :=
  if m.multibulkLen = 0 then
    if r.current = 42 then readInt32 beyond m.multibulkLen r (some pbuf) else (.ok, 1, some pbuf, r)
  else (.ok, m.multibulkLen, some pbuf, r)

def handleResponse (beyond : Bytes) (m : MultibulkParser) (pbuf : Bytes) (r : BufferReader) :
    Error × MultibulkParser × Bytes × BufferReader :=
  match readCount beyond m pbuf r with
  | (.ok, len, pb, r) =>
    responseLoop beyond (len - m.multibulkIndex).toNat { m with multibulkLen := len } (pb.getD pbuf) r
  | (e, len, pb, r) => (e, { m with multibulkLen := len }, pb.getD pbuf, r)

end MultibulkParser

/-! ## CmdParser -/

inductive ParseType where
  | none
  | inline
  | multibulk
  deriving DecidableEq, Repr

structure CmdParser where
  parseType : ParseType
  multibulkParser : MultibulkParser
  /-- The unread input. -/
  inputb : Bytes
  /-- The reader's offset into it. -/
  inputbr : Nat
  deriving DecidableEq, Repr

namespace CmdParser

def init : CmdParser := ⟨.none, .reset, [], 0⟩

/-- `Reset()`: the mode and the counters; the input stays. -/
def reset (p : CmdParser) : CmdParser := { p with parseType := .none, multibulkParser := .reset }

/-- Bytes received at the input's tail. -/
def feed (p : CmdParser) (chunk : Bytes) : CmdParser := { p with inputb := p.inputb ++ chunk }

/-- The end of both `Parse…`: what the reader has passed leaves the input. -/
def handOver (p : CmdParser) (r : BufferReader) : CmdParser :=
  if p.inputbr = r.offset then p else { p with inputb := Buffer.offset p.inputb r.offset, inputbr := 0 }

def parseRequest (beyond : Bytes) (p : CmdParser) (cmd : Cmd) : Error × CmdParser × Cmd :=
  let r : BufferReader := ⟨p.inputb, p.inputbr⟩
  if r.eof then (.tryAgain, p, cmd)
  else
    let type := if p.parseType = .none then (if r.current = 42 then .multibulk else .inline) else p.parseType
    let p := { p with parseType := type }
    if type = .multibulk then
      let (e, m, cmd, r) := p.multibulkParser.handleRequest beyond cmd r
      (e, { p with multibulkParser := m }.handOver r, cmd)
    else
      let (e, cmd, r) := InlineParser.handleRequest cmd r
      (e, p.handOver r, cmd)

/-- The mode a reply's first byte selects. -/
def responseType (ch : Byte) : ParseType :=
  if ch = 42 ∨ ch = 36 then .multibulk
  else if ch = 45 ∨ ch = 43 ∨ ch = 58 then .inline
  else .none

def parseResponse (beyond : Bytes) (p : CmdParser) (resp : Bytes) : Error × CmdParser × Bytes :=
  let r : BufferReader := ⟨p.inputb, p.inputbr⟩
  if r.eof then (.tryAgain, p, resp)
  else
    let type := if p.parseType = .none then responseType r.current else p.parseType
    if type = .none then (.unknown, p, resp)
    else
      let p := { p with parseType := type }
      if type = .multibulk then
        let (e, m, resp, r) := p.multibulkParser.handleResponse beyond resp r
        (e, { p with multibulkParser := m }.handOver r, resp)
      else
        let (e, resp, r) := InlineParser.handleResponse resp r
        (e, p.handOver r, resp)

end CmdParser

end RedisProxy.Wire

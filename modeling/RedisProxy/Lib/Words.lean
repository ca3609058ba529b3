/-
  RedisProxy.Lib.Words — 32-bit words in a memory of bytes, lowest byte first.

  Proved: a word put is got (`getWord_put`), and one before what is written stays (`getWord_before`).
-/

import Mathlib.Data.UInt
import RedisProxy.Lib.Cells

namespace RedisProxy.Lib.Words

open Lib.Cells

def bytesOf (v : Nat) : List UInt8 :=
  [v.toUInt8, (v / 2 ^ 8).toUInt8, (v / 2 ^ 16).toUInt8, (v / 2 ^ 24).toUInt8]

def wordOf (l : List UInt8) : Nat := l.foldr (fun b n => b.toNat + 2 ^ 8 * n) 0

def getWord (f : Nat → UInt8) (i : Nat) : Nat := wordOf (cells f i 4)

def putWord (f : Nat → UInt8) (i v : Nat) : Nat → UInt8 := fill f i (bytesOf v)

@[simp] theorem length_bytesOf (v : Nat) : (bytesOf v).length = 4 := rfl

theorem wordOf_bytesOf (v : Nat) : wordOf (bytesOf v) = v % 2 ^ 32 := by
  simp only [wordOf, bytesOf, List.foldr, Nat.toUInt8, UInt8.toNat_ofNat']
  omega

theorem getWord_put (f : Nat → UInt8) (i v : Nat) : getWord (putWord f i v) i = v % 2 ^ 32 := by
  have hc : cells (putWord f i v) i 4 = bytesOf v := cells_fill f i (bytesOf v)
  rw [getWord, hc, wordOf_bytesOf]

theorem getWord_before (f : Nat → UInt8) {i j : Nat} (l : List UInt8) (h : j + 4 ≤ i) :
    getWord (fill f i l) j = getWord f j := congrArg wordOf (cells_fill_before f l h)

theorem getWord_lt (f : Nat → UInt8) (i : Nat) : getWord f i < 2 ^ 32 := by
  have h0 := (f (i + 0)).toNat_lt
  have h1 := (f (i + 1)).toNat_lt
  have h2 := (f (i + 2)).toNat_lt
  have h3 := (f (i + 3)).toNat_lt
  show (f (i + 0)).toNat + 2 ^ 8 * ((f (i + 1)).toNat + 2 ^ 8 * ((f (i + 2)).toNat + 2 ^ 8 * ((f (i + 3)).toNat +
    2 ^ 8 * 0))) < 2 ^ 32
  omega

end RedisProxy.Lib.Words

import Heph.Lib.SortedMap
import Heph.Addr.Pkg

/-!
# Addresses

A target is named by its package, its name within the package and arguments, which are
kept in the order of their keys. The source interns addresses, so that two of them are equal
exactly if their contents are; an address here is its contents.

`Addr.format` prints an address the way a user writes it. What a hasher is fed is
another rendering, `Addr.hashBytes`: the bytes of the components, one after the other.
-/

namespace Heph

/-- `AddrInner`, and the `Addr` that it is interned as. -/
structure Addr where
  package : PkgBuf
  name : Text
  args : SortedMap Text Text
  deriving DecidableEq

namespace Addr

/-! ### The text -/

/-- The values that are quoted: those that a bare value could not be. -/
def needsQuotes (v : Text) : Bool :=
  v.isEmpty || v.any fun c => c == ' ' || c == ',' || c == '|' || c == '"'

/-- One argument, with its value quoted where it has to be. -/
def formatArg (e : Text × Text) : Text :=
  e.1 ++ '=' :: if needsQuotes e.2 then '"' :: (e.2 ++ ['"']) else e.2

/-- The arguments. -/
def formatArgs : List (Text × Text) → Text
  | [] => []
  | e :: l => '@' :: (formatArg e ++ l.flatMap fun e => ',' :: formatArg e)

/-- `Display for Addr`, and `Addr::format`. -/
def format (a : Addr) : Text :=
  "//".toList ++ (a.package ++ ':' :: (a.name ++ formatArgs a.args.entries))

/-! ### The hash -/

/-- The bytes of a string. -/
def utf8 (s : Text) : List UInt8 := s.flatMap String.utf8EncodeChar

/-- `Hash for AddrInner`: what is written to the hasher, one write at a time. -/
def hashWrites (a : Addr) : List (List UInt8) :=
  utf8 a.package :: utf8 a.name :: a.args.entries.flatMap fun e => [utf8 e.1, utf8 e.2]

/-- The bytes that the hasher is fed: a write has no mark of where it begins or ends. -/
def hashBytes (a : Addr) : List UInt8 := a.hashWrites.flatten

/-- `Addr::hash_str`, for a streaming hash function of 64 bits: the digest of the bytes that
were written, in hexadecimal. -/
def hashStr (digest : List UInt8 → UInt64) (a : Addr) : Text :=
  Nat.toDigits 16 (digest a.hashBytes).toNat

end Addr

end Heph

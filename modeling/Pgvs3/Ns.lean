import Mathlib
/-!
# Namespaces, schema names and the texts that advisory locks hash

The lock texts are those of `schema.sql:455` and `lockObjectKey`.

A text is the list of its characters. `hashtextextended` is taken to be injective, so an advisory
lock is named by the text it hashes.
-/

namespace Pgvs3

abbrev Text := List Char

instance : LawfulBEq Text := inferInstance

inductive Kind where
  | bucket
  | cache
  | writeBack
  | queue
deriving DecidableEq, Repr

/-- `ns.go:26-37`. -/
def Kind.schemaPrefix : Kind → Text
  | .cache => ['s', '3', 'c', '_']
  | .writeBack => ['s', '3', 'w', '_']
  | .queue => ['s', '3', 'q', '_']
  | .bucket => ['s', '3', 'b', '_']

def maxNameLen : Nat := 58

def validNameChar (c : Char) : Bool :=
  ('a' ≤ c && c ≤ 'z') || ('0' ≤ c && c ≤ '9') || c == '-' || c == '_' || c == '.'

/-- `ns.go:51-64`. -/
def validName (name : Text) : Bool :=
  name.length != 0 && name.length ≤ maxNameLen && name.all validNameChar

/-- `Kind.Schema`; `none` is `ErrInvalidName` (`store/object.go:46-48`). -/
def Kind.schema (k : Kind) (name : Text) : Option Text :=
  if validName name then some (k.schemaPrefix ++ name) else none

/-- The identifier between double quotes, every double quote in it doubled: `nsSQLIdent` writes a
schema so (`store.go:618-620`). -/
def quoteIdent (ident : Text) : Text :=
  '"' :: (ident.flatMap fun c => if c = '"' then ['"', '"'] else [c]) ++ ['"']

/-- The text of the advisory lock of a key: the schema as the caller spells it, `\x1f`, the key
(`write.go:689-694`). -/
def lockKey (schema key : Text) : Text := schema ++ '\x1f' :: key

end Pgvs3

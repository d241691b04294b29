import Ncc.Cpp.Token

/-! The macro table (cpp/macro.c, the part that the directives change).

    The buckets of the hash table only speed up the search: a table is the list of its macros, no
    two of one name. -/

namespace Ncc.Cpp

/-- MACRO_PREDEF_*. -/
inductive Predef where
  | stdc | line | file | date | time | defined
  deriving DecidableEq, Repr

/-- `struct macro`; the flags are MACRO_HAS_ARGS and the bits under MACRO_PREDEF_MASK. -/
structure Macro where
  name : String
  hasArgs : Bool := false
  predef : Option Predef := none
  formals : List Token := []
  tokens : List Token := []
  deriving DecidableEq, Repr

/-- MACRO_DEFINED: `defined` itself is not. -/
def Macro.isDefined (m : Macro) : Bool := m.predef != some .defined

abbrev Table := List Macro

/-- `macro_lookup`. -/
def macroLookup (table : Table) (name : String) : Option Macro := table.find? (·.name == name)

/-- The loop over the formals in `macro_define`; every turn takes a token off the list, so its
    length is fuel enough. -/
def defineFormals : Nat → List Token → List Token → Except String (List Token × List Token)
  | 0, _, _ => .error "syntax"
  | fuel + 1, formals, l => do
    let (t, l) ← listMatch (listStripEnds l) .ident
    let l := listStripEnds l
    let formals := formals ++ [t]
    if listFirstIs l .comma then defineFormals fuel formals l.tail else .ok (formals, l)

/-- The formals of a #define, with their parentheses: the flag, the formals and what follows. -/
def defineArgs (l : List Token) : Except String (Bool × List Token × List Token) :=
  if listFirstIs l .lparen then do
    let l := l.tail
    let (formals, l) ← if listFirstIs l .rparen then .ok ([], l) else defineFormals l.length [] l
    let (_, l) ← listMatch l .rparen
    return (true, formals, l)
  else .ok (false, [], l)

/-- `macro_define`. -/
def macroDefine (table : Table) (l : List Token) : Except String Table := do
  let (ident, l) ← listMatch l .ident
  let (hasArgs, formals, l) ← defineArgs l
  let tokens := listNormalize l formals
  match macroLookup table ident.text with
  | some m =>
    if m.predef.isSome then .error ("can't #define reserved identifier '" ++ m.name ++ "'")
    else if !listSame m.formals formals || !listSame m.tokens tokens || m.hasArgs != hasArgs then
      .error ("incompatible re-#definition of '" ++ m.name ++ "'")
    else .ok table
  | none =>
    return { name := ident.text, hasArgs := hasArgs, formals := formals, tokens := tokens } :: table

/-- `macro_undef`: the new table and the tokens after the name. -/
def macroUndef (table : Table) (l : List Token) : Except String (Table × List Token) := do
  let (ident, l) ← listMatch l .ident
  match macroLookup table ident.text with
  | some m =>
    if m.predef.isSome then .error ("can't #undef reserved identifier '" ++ m.name ++ "'")
    else return (table.eraseP (·.name == ident.text), l)
  | none => return (table, l)

end Ncc.Cpp

import CMinus.AST

namespace CMinus

def symbolKindName : SymbolKind → String
  | .variable => "variable"
  | .parameter => "parameter"
  | .function => "function"

/-! A scope keeps its symbols in declaration order.  A name is entered only when
the scope does not hold it yet, so `byName` is a search in that list. -/

structure Scope where
  order : Nat
  label : String
  symbols : List Symbol := []
deriving Repr, DecidableEq, Inhabited

structure ScopeReport where
  order : Nat := 0
  depth : Int := 0
  label : String := ""
  symbols : List Symbol := []
deriving Repr, DecidableEq, Inhabited

def Scope.find (scope : Scope) (name : String) : Option Symbol :=
  scope.symbols.find? (fun symbol => symbol.name = name)

/-! `scopes` has the innermost scope first. -/

structure SymbolTable where
  storage : List Symbol := []
  scopes : List Scope := []
  nextOrder : Nat := 0
deriving Repr, DecidableEq, Inhabited

namespace SymbolTable

def depth (table : SymbolTable) : Int := (table.scopes.length : Int) - 1

def pushScope (table : SymbolTable) (label : String) : SymbolTable :=
  { table with
    scopes := { order := table.nextOrder, label := label } :: table.scopes
    nextOrder := table.nextOrder + 1 }

def popScope (table : SymbolTable) : ScopeReport × SymbolTable :=
  match table.scopes with
  | [] => ({}, table)
  | scope :: outer =>
      ({ order := scope.order, depth := table.depth, label := scope.label,
         symbols := scope.symbols }, { table with scopes := outer })

inductive Declared where
  | inserted (symbol : Symbol)
  | existing (symbol : Symbol)
  | noScope
deriving Repr, DecidableEq, Inhabited

def declare (table : SymbolTable) (symbol : Symbol) : Declared × SymbolTable :=
  match table.scopes with
  | [] => (.noScope, table)
  | scope :: outer =>
      match scope.find symbol.name with
      | some found => (.existing found, table)
      | none =>
          let stored := { symbol with id := table.storage.length }
          (.inserted stored,
            { table with
              storage := table.storage ++ [stored]
              scopes := { scope with symbols := scope.symbols ++ [stored] } :: outer })

def lookupIn (scopes : List Scope) (name : String) : Option Symbol :=
  scopes.findSome? (fun scope => scope.find name)

def lookup (table : SymbolTable) (name : String) : Option Symbol :=
  lookupIn table.scopes name

end SymbolTable

end CMinus

import ParamStream.Func.Basic

/-!
# Building functions

A `Builder` is a function under construction.  Variables are handed out in order, so the variable
that the next declaration or binding will define is known beforehand: it is `Builder.next`, the
first position that the table does not hold yet.  Every operation below returns the builder after
it, and the variable it defines is `next` of the builder before it.

Blocks without bindings never reach the finished function, and a binding emitted while no block is
open gets a plain block of its own.
-/

namespace ParamStream

/-- A function under construction. -/
structure Builder where
  params : List VarId := []
  /-- finished blocks -/
  closed : List Block := []
  /-- the block that bindings go to -/
  pending : Option Block := none
  vars : List VarDecl := []
  attrs : Assoc Symbol AttrValue := []

namespace Builder

def empty : Builder := {}

/-- The variable that the next declaration or binding defines. -/
def next (b : Builder) : VarId := ⟨b.vars.length⟩

/-- The variables that the next `n` declarations or bindings define. -/
def upcoming (b : Builder) (n : Nat) : List VarId :=
  (List.range' b.vars.length n).map VarId.mk

/-- Declare a parameter. -/
def param (b : Builder) (name : Symbol) (ty : Ty) : Builder :=
  { b with params := b.params ++ [b.next], vars := b.vars ++ [⟨name, ty⟩] }

/-- The finished blocks once the pending one is closed; an empty one is dropped. -/
def sealed (b : Builder) : List Block :=
  match b.pending with
  | some block => if block.bindings.isEmpty then b.closed else b.closed ++ [block]
  | none => b.closed

/-- Close the pending block. -/
def endBlock (b : Builder) : Builder := { b with closed := b.sealed, pending := none }

/-- Close the pending block and open a new one. -/
def beginBlock (b : Builder) (kind : BlockKind) : Builder :=
  { b with closed := b.sealed, pending := some ⟨kind, []⟩ }

/-- The type of an expression over the variables defined so far. -/
def typeOf (b : Builder) (e : Expr) : Ty := e.typeIn b.vars

/-- Bind `value` to `next`, at the type `ty`. -/
def emitTyped (b : Builder) (name : Symbol) (value : Expr) (ty : Ty) : Builder :=
  let block := b.pending.getD ⟨.plain, []⟩
  { b with
    pending := some { block with bindings := block.bindings ++ [⟨b.next, value⟩] }
    vars := b.vars ++ [⟨name, ty⟩] }

/-- Bind `value` to `next`, at the type it has. -/
def emit (b : Builder) (name : Symbol) (value : Expr) : Builder :=
  b.emitTyped name value (b.typeOf value)

/-- Bind the values in order to unnamed variables. -/
def emitAll (b : Builder) (values : List Expr) : Builder :=
  values.foldl (fun b value => b.emit .empty value) b

/-- Set an attribute, replacing an earlier value. -/
def setAttr (b : Builder) (name : Symbol) (value : AttrValue) : Builder :=
  { b with attrs := b.attrs.insert name value }

/-- Close the pending block and return the function. -/
def finish (b : Builder) (result : Expr) (resultTy : Ty) : Func where
  params := b.params
  blocks := b.sealed
  result := result
  resultTy := resultTy
  vars := b.vars
  attrs := b.attrs

@[simp] theorem vars_emitTyped (b : Builder) (name : Symbol) (value : Expr) (ty : Ty) :
    (b.emitTyped name value ty).vars = b.vars ++ [⟨name, ty⟩] := rfl

@[simp] theorem vars_beginBlock (b : Builder) (kind : BlockKind) :
    (b.beginBlock kind).vars = b.vars := rfl

@[simp] theorem vars_endBlock (b : Builder) : b.endBlock.vars = b.vars := rfl

@[simp] theorem emitAll_nil (b : Builder) : b.emitAll [] = b := rfl

@[simp] theorem emitAll_cons (b : Builder) (value : Expr) (values : List Expr) :
    b.emitAll (value :: values) = (b.emit .empty value).emitAll values := rfl

theorem length_vars_emitAll (b : Builder) (values : List Expr) :
    (b.emitAll values).vars.length = b.vars.length + values.length := by
  induction values generalizing b with
  | nil => rfl
  | cons value values ih =>
    rw [emitAll_cons, ih]
    simp only [emit, vars_emitTyped, List.length_append, List.length_cons, List.length_nil]
    omega

end Builder

end ParamStream

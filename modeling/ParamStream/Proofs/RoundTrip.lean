import Mathlib.Data.List.Nodup
import ParamStream.Archive.Codec

/-!
# Archived functions are read back

Writing goes by the shape of a function and reading by the shape of the data, and the two are
separate recursions.  Writing is total, but reading refuses numbers that are out of range, so it is
the functions whose numbers all *fit* that come back: variables, symbols and projection indices
that are 32-bit words, and integers of 64 bits.  Nothing else is asked of a function; it need not
be well scoped.

A record is a set of named fields, and data that have travelled may list them in another order than
they were written in.  `Data.Same` compares data up to that order, and reading does not notice it.

## Main definitions

* `Expr.fits`, `Func.fits` — all numbers are in range;
* `Data.Same` — the same data, but for the order of the fields of records.

## Main statements

* `Expr.ofData?_of_same`, `Func.ofData?_of_same` — data that are the same as written are read back;
* `Func.read_back_of_fits`.
-/

namespace List

/-- With distinct keys, looking up a key finds each of its entries. -/
theorem lookup_eq_some_of_mem {κ α : Type} [BEq κ] [LawfulBEq κ] {entries : List (κ × α)}
    (distinct : (entries.map Prod.fst).Nodup) {k : κ} {a : α} (mem : (k, a) ∈ entries) :
    entries.lookup k = some a := by
  obtain ⟨before, after, rfl⟩ := append_of_mem mem
  refine lookup_eq_some_iff.mpr ⟨before, after, rfl, fun entry entry_mem => ?_⟩
  rw [map_append, map_cons, nodup_append] at distinct
  have differ := distinct.2.2 entry.1 (mem_map_of_mem entry_mem) k mem_cons_self
  simpa using Ne.symm differ

end List

namespace ParamStream

/-! ### Numbers in range -/

def VarId.fits (v : VarId) : Bool := decide (Data.IsWord v.index)

def Symbol.fits (s : Symbol) : Bool := decide (Data.IsWord s.index)

def Literal.fits : Literal → Bool
  | .int n => decide (Data.IsInt64 n)
  | .bool _ | .unit => true

namespace Expr

mutual

/-- Whether all variables, symbols, indices and integers of an expression are in range. -/
def fits : Expr → Bool
  | .var v => v.fits
  | .tuple fields => fitsAll fields
  | .proj base i => base.fits && decide (Data.IsWord i)
  | .call callee args _ => callee.fits && fitsAll args
  | .lit l => l.fits
  | .host name | .op name => name.fits

/-- `fits` for every expression of a list. -/
def fitsAll : List Expr → Bool
  | [] => true
  | e :: es => e.fits && fitsAll es

end

end Expr

def Binding.fits (b : Binding) : Bool := b.var.fits && b.value.fits

def Block.fits (block : Block) : Bool := block.bindings.all Binding.fits

def AttrValue.fits : AttrValue → Bool
  | .int n => decide (Data.IsInt64 n)
  | .bool _ => true
  | .str s => s.fits

/-- Whether all numbers of a function are in range. -/
def Func.fits (f : Func) : Bool :=
  f.params.all VarId.fits && f.blocks.all Block.fits && f.result.fits &&
    f.vars.all (fun decl => decl.name.fits) &&
    f.attrs.all (fun attr => attr.1.fits && attr.2.fits)

/-! ### Data up to the order of fields -/

namespace Data

mutual

/-- The data are the same, but for the order of the fields of records. -/
def Same (d : Data) : Data → Prop
  | .list items => ∃ items', d = .list items' ∧ SameAll items' items
  | .record fields => ∃ fields' sorted, d = .record fields' ∧ fields'.Perm sorted ∧
      SameFields sorted fields
  | .null => d = .null
  | .bool b => d = .bool b
  | .num n => d = .num n
  | .decimal mantissa places => d = .decimal mantissa places
  | .str s => d = .str s

/-- `Same` item by item. -/
def SameAll (items : List Data) : List Data → Prop
  | [] => items = []
  | d :: ds => ∃ d' ds', items = d' :: ds' ∧ d'.Same d ∧ SameAll ds' ds

/-- `Same` field by field, under the same names. -/
def SameFields (fields : List (String × Data)) : List (String × Data) → Prop
  | [] => fields = []
  | (name, d) :: rest =>
    ∃ d' rest', fields = (name, d') :: rest' ∧ d'.Same d ∧ SameFields rest' rest

end

mutual

theorem Same.refl (d : Data) : d.Same d := by
  match d with
  | .list items => exact ⟨items, rfl, SameAll.refl items⟩
  | .record fields => exact ⟨fields, fields, rfl, .refl fields, SameFields.refl fields⟩
  | .null => rfl
  | .bool b => rfl
  | .num n => rfl
  | .decimal mantissa places => rfl
  | .str s => rfl

theorem SameAll.refl (ds : List Data) : SameAll ds ds := by
  match ds with
  | [] => rfl
  | d :: ds => exact ⟨d, ds, rfl, Same.refl d, SameAll.refl ds⟩

theorem SameFields.refl (fields : List (String × Data)) : SameFields fields fields := by
  match fields with
  | [] => rfl
  | (name, d) :: rest => exact ⟨d, rest, rfl, Same.refl d, SameFields.refl rest⟩

end

/-- A record of one field has one order only. -/
theorem same_tagged {d content : Data} {tag : String} (same : d.Same (tagged tag content)) :
    ∃ content', d = .record [(tag, content')] ∧ content'.Same content := by
  simp only [tagged, Same, SameFields] at same
  obtain ⟨fields, sorted, rfl, perm, content', _, rfl, same_content, rfl⟩ := same
  exact ⟨content', by rw [List.perm_singleton.mp perm], same_content⟩

theorem SameFields.map_fst {fields' fields : List (String × Data)}
    (same : SameFields fields' fields) : fields'.map Prod.fst = fields.map Prod.fst := by
  induction fields generalizing fields' with
  | nil =>
    simp only [SameFields] at same
    rw [same]
  | cons field fields ih =>
    obtain ⟨name, d⟩ := field
    simp only [SameFields] at same
    obtain ⟨d', rest, rfl, -, same_rest⟩ := same
    rw [List.map_cons, List.map_cons, ih same_rest]

theorem SameFields.exists_mem {fields' fields : List (String × Data)}
    (same : SameFields fields' fields) {name : String} {d : Data} (mem : (name, d) ∈ fields) :
    ∃ d', (name, d') ∈ fields' ∧ d'.Same d := by
  induction fields generalizing fields' with
  | nil => simp at mem
  | cons field fields ih =>
    obtain ⟨first, e⟩ := field
    simp only [SameFields] at same
    obtain ⟨e', rest, rfl, same_first, same_rest⟩ := same
    rcases List.mem_cons.mp mem with first_field | later
    · obtain ⟨rfl, rfl⟩ := Prod.mk.inj first_field
      exact ⟨e', List.mem_cons_self, same_first⟩
    · obtain ⟨d', d_mem, same_d⟩ := ih same_rest later
      exact ⟨d', List.mem_cons_of_mem _ d_mem, same_d⟩

/-- **Fields are found by name.**  In whatever order a record lists its fields, looking up the name
of one finds its content. -/
theorem exists_lookup_of_same {d : Data} {fields : List (String × Data)}
    (same : d.Same (.record fields)) (distinct : (fields.map Prod.fst).Nodup) :
    ∃ fields', d = .record fields' ∧ ∀ entry ∈ fields,
      ∃ content, fields'.lookup entry.1 = some content ∧ content.Same entry.2 := by
  simp only [Same] at same
  obtain ⟨fields', sorted, rfl, perm, same_fields⟩ := same
  refine ⟨fields', rfl, fun entry mem => ?_⟩
  have distinct' : (fields'.map Prod.fst).Nodup := by
    rw [(perm.map Prod.fst).nodup_iff, same_fields.map_fst]
    exact distinct
  obtain ⟨content, content_mem, same_content⟩ := same_fields.exists_mem mem
  exact ⟨content, List.lookup_eq_some_of_mem distinct' (perm.mem_iff.mpr content_mem),
    same_content⟩

/-- The fields of a structure are found in the order in which it names them. -/
theorem exists_fields?_of_same {d : Data} {fields : List (String × Data)}
    (same : d.Same (.record fields)) (distinct : (fields.map Prod.fst).Nodup) :
    ∃ contents, d.fields? (fields.map Prod.fst) = some contents ∧
      SameAll contents (fields.map Prod.snd) := by
  obtain ⟨fields', rfl, found⟩ := exists_lookup_of_same same distinct
  clear same distinct
  simp only [fields?]
  induction fields with
  | nil => exact ⟨[], rfl, by simp [SameAll]⟩
  | cons entry fields ih =>
    obtain ⟨content, looked_up, same_content⟩ := found entry List.mem_cons_self
    obtain ⟨contents, rest, same_rest⟩ := ih fun e mem => found e (List.mem_cons_of_mem _ mem)
    refine ⟨content :: contents, ?_, ?_⟩
    · rw [List.map_cons, List.mapM_cons, looked_up, rest]
      rfl
    · simp only [List.map_cons, SameAll]
      exact ⟨content, contents, rfl, same_content, same_rest⟩

/-- A list is read back when its items are. -/
theorem listOf?_of_same {α : Type} {write : α → Data} {read : Data → Option α} {xs : List α}
    (items : ∀ x ∈ xs, ∀ d : Data, d.Same (write x) → read d = some x) {d : Data}
    (same : d.Same (.list (xs.map write))) : d.listOf? read = some xs := by
  simp only [Same] at same
  obtain ⟨ds, rfl, same_all⟩ := same
  show ds.mapM read = some xs
  induction xs generalizing ds with
  | nil =>
    simp only [List.map_nil, SameAll] at same_all
    rw [same_all]
    rfl
  | cons x xs ih =>
    simp only [List.map_cons, SameAll] at same_all
    obtain ⟨e, es, rfl, same_head, same_rest⟩ := same_all
    rw [List.mapM_cons, items x List.mem_cons_self e same_head,
      ih (fun y mem => items y (List.mem_cons_of_mem _ mem)) es same_rest]
    rfl

theorem word?_num {n : Nat} (fits : IsWord n) : (Data.num n).word? = some n := by
  simp [word?, fits]

theorem int64?_num {n : Int} (fits : IsInt64 n) : (Data.num n).int64? = some n := by
  simp [int64?, fits]

end Data

/-! ### Symbols, variables and types -/

theorem Symbol.ofData?_of_same {s : Symbol} (fits : s.fits = true) {d : Data}
    (same : d.Same s.toData) : Symbol.ofData? d = some s := by
  obtain rfl : d = .num s.index := same
  rw [ofData?, Data.word?_num (of_decide_eq_true fits)]
  rfl

theorem VarId.ofData?_of_same {v : VarId} (fits : v.fits = true) {d : Data}
    (same : d.Same v.toData) : VarId.ofData? d = some v := by
  obtain rfl : d = .num v.index := same
  rw [ofData?, Data.word?_num (of_decide_eq_true fits)]
  rfl

namespace Ty

mutual

theorem ofData?_of_same (ty : Ty) {d : Data} (same : d.Same ty.toData) : ofData? d = some ty := by
  match ty with
  | .object =>
    obtain rfl : d = .str "Object" := same
    rfl
  | .tensor =>
    obtain rfl : d = .str "Tensor" := same
    rfl
  | .int =>
    obtain ⟨content, rfl, same_content⟩ := Data.same_tagged same
    obtain rfl : content = .str "Int" := same_content
    rfl
  | .bool =>
    obtain ⟨content, rfl, same_content⟩ := Data.same_tagged same
    obtain rfl : content = .str "Bool" := same_content
    rfl
  | .tuple fields =>
    obtain ⟨content, rfl, same_content⟩ := Data.same_tagged same
    simp only [Data.Same] at same_content
    obtain ⟨items, rfl, same_items⟩ := same_content
    simp [ofData?, ofVariant?, ofDataAll?_of_same fields same_items]

theorem ofDataAll?_of_same (tys : List Ty) {ds : List Data}
    (same : Data.SameAll ds (toDataAll tys)) : ofDataAll? ds = some tys := by
  match tys with
  | [] =>
    simp only [toDataAll, Data.SameAll] at same
    rw [same]
    rfl
  | ty :: tys =>
    simp only [toDataAll, Data.SameAll] at same
    obtain ⟨e, es, rfl, same_head, same_rest⟩ := same
    simp [ofDataAll?, ofData?_of_same ty same_head, ofDataAll?_of_same tys same_rest]

end

end Ty

/-! ### Expressions -/

theorem Literal.ofData?_of_same {l : Literal} (fits : l.fits = true) {d : Data}
    (same : d.Same l.toData) : Literal.ofData? d = some l := by
  cases l with
  | int n =>
    obtain ⟨content, rfl, same_content⟩ := Data.same_tagged same
    obtain rfl : content = .num n := same_content
    simp [ofData?, Data.variant?, Data.int64?_num (of_decide_eq_true fits)]
  | bool b =>
    obtain ⟨content, rfl, same_content⟩ := Data.same_tagged same
    obtain rfl : content = .bool b := same_content
    rfl
  | unit =>
    obtain rfl : d = .str "Unit" := same
    rfl

namespace Expr

theorem lookup_operands (fields : List (String × Data)) (name : String) :
    (operands fields).lookup name =
      (fields.lookup name).map fun d => ⟨d, ofData? d, ofList? d⟩ := by
  induction fields with
  | nil => simp [operands]
  | cons field fields ih =>
    obtain ⟨key, d⟩ := field
    rw [operands, List.lookup_cons, List.lookup_cons, ih]
    cases name == key <;> rfl

/-- A tag without nested expressions is read by its content alone. -/
theorem ofData?_of_flat {tag : String} {content d : Data} {e : Expr}
    (same : d.Same (.tagged tag content))
    (flat : ∀ content' : Data, content'.Same content → flatOfData? tag content' = some e) :
    ofData? d = some e := by
  obtain ⟨content', rfl, same_content⟩ := Data.same_tagged same
  have read := flat content' same_content
  cases content' with
  | list items =>
    -- No content without nested expressions is a list.
    unfold flatOfData? at read
    split at read <;>
      simp [VarId.ofData?, Symbol.ofData?, Literal.ofData?, Data.word?, Data.variant?] at read
  | record fields => simp [ofData?, ofVariant?, read]
  | _ => simpa [ofData?, ofVariant?] using read

/-- A projection is read from the fields of its content. -/
theorem ofData?_projection {fields : List (String × Data)} {tuple index : Data} {base : Expr}
    {i : Nat} (has_tuple : fields.lookup "tuple" = some tuple)
    (has_index : fields.lookup "index" = some index) (base_read : ofData? tuple = some base)
    (index_read : index.word? = some i) :
    ofData? (.record [("TupleGetItem", .record fields)]) = some (.proj base i) := by
  simp [ofData?, ofVariant?, flatOfData?, compound?, lookup_operands, has_tuple, has_index,
    base_read, index_read]

/-- A call is read from the fields of its content. -/
theorem ofData?_call {fields : List (String × Data)} {head list result : Data} {callee : Expr}
    {args : List Expr} {ty : Ty} (has_callee : fields.lookup "callee" = some head)
    (has_args : fields.lookup "args" = some list) (has_ty : fields.lookup "ty" = some result)
    (callee_read : ofData? head = some callee) (args_read : ofList? list = some args)
    (ty_read : Ty.ofData? result = some ty) :
    ofData? (.record [("Call", .record fields)]) = some (.call callee args ty) := by
  simp [ofData?, ofVariant?, flatOfData?, compound?, lookup_operands, has_callee, has_args,
    has_ty, callee_read, args_read, ty_read]

mutual

/-- **Expressions are read back**, from any data that are the same as written. -/
theorem ofData?_of_same (e : Expr) :
    e.fits = true → ∀ {d : Data}, d.Same e.toData → ofData? d = some e := by
  match e with
  | .var v =>
    intro in_range d same
    rw [fits] at in_range
    refine ofData?_of_flat same fun content same_content => ?_
    simp [flatOfData?, VarId.ofData?_of_same in_range same_content]
  | .tuple fields =>
    intro in_range d same
    rw [fits] at in_range
    obtain ⟨content, rfl, same_content⟩ := Data.same_tagged same
    simp only [Data.Same] at same_content
    obtain ⟨items, rfl, same_items⟩ := same_content
    simp [ofData?, ofVariant?, ofDataAll?_of_same fields in_range same_items]
  | .proj base i =>
    intro in_range d same
    simp only [fits, Bool.and_eq_true, decide_eq_true_eq] at in_range
    obtain ⟨content, rfl, same_content⟩ := Data.same_tagged same
    obtain ⟨fields, rfl, found⟩ := Data.exists_lookup_of_same same_content (by simp)
    simp only [List.forall_mem_cons] at found
    obtain ⟨⟨tuple, has_tuple, same_tuple⟩, ⟨index, has_index, same_index⟩, -⟩ := found
    obtain rfl : index = .num i := same_index
    exact ofData?_projection has_tuple has_index (ofData?_of_same base in_range.1 same_tuple)
      (Data.word?_num in_range.2)
  | .call callee args ty =>
    intro in_range d same
    simp only [fits, Bool.and_eq_true] at in_range
    obtain ⟨content, rfl, same_content⟩ := Data.same_tagged same
    obtain ⟨fields, rfl, found⟩ := Data.exists_lookup_of_same same_content (by simp)
    simp only [List.forall_mem_cons] at found
    obtain ⟨⟨head, has_callee, same_callee⟩, ⟨list, has_args, same_args⟩,
      ⟨result, has_ty, same_ty⟩, -⟩ := found
    simp only [Data.Same] at same_args
    obtain ⟨items, rfl, same_items⟩ := same_args
    exact ofData?_call has_callee has_args has_ty (ofData?_of_same callee in_range.1 same_callee)
      (ofDataAll?_of_same args in_range.2 same_items) (Ty.ofData?_of_same ty same_ty)
  | .lit l =>
    intro in_range d same
    rw [fits] at in_range
    refine ofData?_of_flat same fun content same_content => ?_
    simp [flatOfData?, Literal.ofData?_of_same in_range same_content]
  | .host name =>
    intro in_range d same
    rw [fits] at in_range
    refine ofData?_of_flat same fun content same_content => ?_
    simp [flatOfData?, Symbol.ofData?_of_same in_range same_content]
  | .op name =>
    intro in_range d same
    rw [fits] at in_range
    refine ofData?_of_flat same fun content same_content => ?_
    simp [flatOfData?, Symbol.ofData?_of_same in_range same_content]

/-- `ofData?_of_same` for a list of expressions. -/
theorem ofDataAll?_of_same (es : List Expr) :
    fitsAll es = true → ∀ {ds : List Data}, Data.SameAll ds (toDataAll es) →
      ofDataAll? ds = some es := by
  match es with
  | [] =>
    intro _ ds same
    simp only [toDataAll, Data.SameAll] at same
    rw [same]
    rfl
  | e :: es =>
    intro in_range ds same
    simp only [fitsAll, Bool.and_eq_true] at in_range
    simp only [toDataAll, Data.SameAll] at same
    obtain ⟨d, rest, rfl, same_head, same_rest⟩ := same
    simp [ofDataAll?, ofData?_of_same e in_range.1 same_head,
      ofDataAll?_of_same es in_range.2 same_rest]

end

end Expr

/-! ### Functions -/

theorem Binding.ofData?_of_same {b : Binding} (in_range : b.fits = true) {d : Data}
    (same : d.Same b.toData) : Binding.ofData? d = some b := by
  simp only [fits, Bool.and_eq_true] at in_range
  obtain ⟨contents, found, same_contents⟩ := Data.exists_fields?_of_same same (by simp)
  simp only [List.map_cons, List.map_nil, Data.SameAll] at found same_contents
  obtain ⟨var, _, rfl, same_var, value, _, rfl, same_value, rfl⟩ := same_contents
  simp [ofData?, found, VarId.ofData?_of_same in_range.1 same_var,
    Expr.ofData?_of_same b.value in_range.2 same_value]

theorem BlockKind.ofData?_of_same (kind : BlockKind) {d : Data} (same : d.Same kind.toData) :
    BlockKind.ofData? d = some kind := by
  cases kind with
  | dataflow =>
    obtain rfl : d = .str "Dataflow" := same
    rfl
  | plain =>
    obtain rfl : d = .str "Plain" := same
    rfl

theorem Block.ofData?_of_same {block : Block} (in_range : block.fits = true) {d : Data}
    (same : d.Same block.toData) : Block.ofData? d = some block := by
  simp only [fits, List.all_eq_true] at in_range
  obtain ⟨contents, found, same_contents⟩ := Data.exists_fields?_of_same same (by simp)
  simp only [List.map_cons, List.map_nil, Data.SameAll] at found same_contents
  obtain ⟨kind, _, rfl, same_kind, bindings, _, rfl, same_bindings, rfl⟩ := same_contents
  have read : bindings.listOf? Binding.ofData? = some block.bindings :=
    Data.listOf?_of_same (fun b mem _ => Binding.ofData?_of_same (in_range b mem)) same_bindings
  simp [ofData?, found, BlockKind.ofData?_of_same block.kind same_kind, read]

theorem VarDecl.ofData?_of_same {decl : VarDecl} (in_range : decl.name.fits = true) {d : Data}
    (same : d.Same decl.toData) : VarDecl.ofData? d = some decl := by
  obtain ⟨contents, found, same_contents⟩ := Data.exists_fields?_of_same same (by simp)
  simp only [List.map_cons, List.map_nil, Data.SameAll] at found same_contents
  obtain ⟨name, _, rfl, same_name, ty, _, rfl, same_ty, rfl⟩ := same_contents
  simp [ofData?, found, Symbol.ofData?_of_same in_range same_name,
    Ty.ofData?_of_same decl.ty same_ty]

theorem AttrValue.ofData?_of_same {value : AttrValue} (in_range : value.fits = true) {d : Data}
    (same : d.Same value.toData) : AttrValue.ofData? d = some value := by
  cases value with
  | int n =>
    obtain ⟨content, rfl, same_content⟩ := Data.same_tagged same
    obtain rfl : content = .num n := same_content
    simp [ofData?, Data.variant?, Data.int64?_num (of_decide_eq_true in_range)]
  | bool b =>
    obtain ⟨content, rfl, same_content⟩ := Data.same_tagged same
    obtain rfl : content = .bool b := same_content
    rfl
  | str s =>
    obtain ⟨content, rfl, same_content⟩ := Data.same_tagged same
    simp [ofData?, Data.variant?, Symbol.ofData?_of_same in_range same_content]

namespace Func

theorem attrOfData?_of_same {attr : Symbol × AttrValue} (name_fits : attr.1.fits = true)
    (value_fits : attr.2.fits = true) {d : Data} (same : d.Same (attrToData attr)) :
    attrOfData? d = some attr := by
  simp only [attrToData, Data.Same, Data.SameAll] at same
  obtain ⟨_, rfl, name, _, rfl, same_name, value, _, rfl, same_value, rfl⟩ := same
  simp [attrOfData?, Symbol.ofData?_of_same name_fits same_name,
    AttrValue.ofData?_of_same value_fits same_value]

/-- **Functions are read back**, from any data that are the same as written. -/
theorem ofData?_of_same {f : Func} (in_range : f.fits = true) {d : Data} (same : d.Same f.toData) :
    Func.ofData? d = some f := by
  simp only [fits, Bool.and_eq_true, List.all_eq_true] at in_range
  obtain ⟨⟨⟨⟨params_fit, blocks_fit⟩, result_fits⟩, vars_fit⟩, attrs_fit⟩ := in_range
  obtain ⟨contents, found, same_contents⟩ := Data.exists_fields?_of_same same (by simp)
  simp only [List.map_cons, List.map_nil, Data.SameAll] at found same_contents
  obtain ⟨params, _, rfl, same_params, blocks, _, rfl, same_blocks, result, _, rfl, same_result,
    ty, _, rfl, same_ty, vars, _, rfl, same_vars, attrs, _, rfl, same_attrs, rfl⟩ := same_contents
  have params_read : params.listOf? VarId.ofData? = some f.params :=
    Data.listOf?_of_same (fun v mem _ => VarId.ofData?_of_same (params_fit v mem)) same_params
  have blocks_read : blocks.listOf? Block.ofData? = some f.blocks :=
    Data.listOf?_of_same (fun b mem _ => Block.ofData?_of_same (blocks_fit b mem)) same_blocks
  have vars_read : vars.listOf? VarDecl.ofData? = some f.vars :=
    Data.listOf?_of_same (fun v mem _ => VarDecl.ofData?_of_same (vars_fit v mem)) same_vars
  have attrs_read : attrs.listOf? attrOfData? = some f.attrs :=
    Data.listOf?_of_same
      (fun a mem _ => attrOfData?_of_same (attrs_fit a mem).1 (attrs_fit a mem).2) same_attrs
  simp [ofData?, found, params_read, blocks_read, vars_read, attrs_read,
    Expr.ofData?_of_same f.result result_fits same_result, Ty.ofData?_of_same f.resultTy same_ty]

/-- **The archive keeps functions.**  A function whose numbers are in range is read back from its
archived form, whatever order the fields of records have taken, and no other such function has the
same archived form. -/
theorem read_back_of_fits {f : Func} (in_range : f.fits = true) :
    Func.ofData? f.toData = some f ∧
      (∀ d : Data, d.Same f.toData → Func.ofData? d = some f) ∧
      ∀ g : Func, g.fits = true → g.toData.Same f.toData → g = f := by
  have read_back : ∀ d : Data, d.Same f.toData → Func.ofData? d = some f :=
    fun d same => ofData?_of_same in_range same
  refine ⟨read_back f.toData (Data.Same.refl _), read_back, fun g g_fits same => ?_⟩
  have as_g : Func.ofData? g.toData = some g := ofData?_of_same g_fits (Data.Same.refl _)
  exact Option.some.inj (as_g.symm.trans (read_back g.toData same))

end Func

/-- A function that makes little sense: it reads variables that are not in its table and binds one
of them twice, and its numbers lie at the ends of their ranges. -/
def Sample.extremes : Func where
  params := [⟨4294967295⟩, ⟨0⟩, ⟨0⟩]
  blocks :=
    [⟨.plain, []⟩,
      ⟨.dataflow,
      [⟨⟨7⟩, .proj (.proj (.tuple [.var ⟨0⟩, .lit .unit]) 4294967295) 0⟩,
        ⟨⟨7⟩, .call (.call (.host ⟨3⟩) [] .object)
          [.op ⟨4294967295⟩, .lit (.int (-9223372036854775808)), .lit (.bool false)]
          (.tuple [.int, .tuple [], .tuple [.bool, .tensor]])⟩]⟩]
  result := .lit (.int 9223372036854775807)
  resultTy := .unit
  vars := [⟨⟨4294967295⟩, .tuple [.object]⟩]
  attrs := [(⟨1⟩, .int (-9223372036854775808)), (⟨1⟩, .str ⟨2⟩), (⟨0⟩, .bool true)]

namespace Func

open Sample in
/-- The fields of the outermost record come in reverse. -/
theorem read_back_of_fits_extremes : ∃ fields,
    extremes.toData = .record fields ∧ extremes.fits = true ∧
      Func.ofData? extremes.toData = some extremes ∧
      Func.ofData? (.record fields.reverse) = some extremes := by
  have in_range : extremes.fits = true := by decide
  obtain ⟨as_written, reordered, -⟩ := read_back_of_fits in_range
  refine ⟨_, rfl, in_range, as_written, reordered _ ?_⟩
  exact ⟨_, _, rfl, List.reverse_perm _, Data.SameFields.refl _⟩

end Func

end ParamStream

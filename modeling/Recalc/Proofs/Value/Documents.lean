import Recalc.Proofs.Fields
import Recalc.Value.Json

/-! Values as documents and back. A value comes back as it was, with null in place of every infinity
and NaN, so an integer stays apart from the double that denotes it. A document comes back exactly
when its integers are signed 64-bit ones. Neither way leads out of the values and documents whose
fields are in order. -/
namespace Recalc

/-! ### Numbers of a document -/

/-- An integer fits when it is a signed 64-bit one, a double always. -/
def JsonNumber.fits : JsonNumber → Bool
  | .int n => Word.fits n
  | .float _ _ => true

namespace Json

mutual

/-- The numbers of a document, at every depth. -/
def numbers : Json → List JsonNumber
  | .null => []
  | .bool _ => []
  | .num n => [n]
  | .str _ => []
  | .arr items => itemNumbers items
  | .obj fields => fieldNumbers fields

def itemNumbers : List Json → List JsonNumber
  | [] => []
  | j :: rest => numbers j ++ itemNumbers rest

def fieldNumbers : List (String × Json) → List JsonNumber
  | [] => []
  | (_, j) :: rest => numbers j ++ fieldNumbers rest

end

end Json

namespace Value

/-! ### Numbers both ways -/

private theorem ofJsonNumber_int {n : Int} (h : Word.fits n = true) :
    ofJsonNumber (.int n) = int n := by
  rw [ofJsonNumber, JsonNumber.toInt64?_eq_some.mpr ⟨rfl, h⟩]

/-- A number that is no 64-bit integer is read as a double. -/
theorem ofJsonNumber_of_ne_int {n : JsonNumber} (h : ∀ i, n = .int i → Word.fits i = false) :
    ofJsonNumber n = float n.toFloat := by
  have none : n.toInt64? = none := by
    refine Option.eq_none_iff_forall_not_mem.mpr fun i found => ?_
    obtain ⟨same, fits⟩ := JsonNumber.toInt64?_eq_some.mp found
    rw [h i same] at fits
    cases fits
  rw [ofJsonNumber, none]

private theorem ofJsonNumber_float (x : Double) (finite : Double.isFinite x = true) :
    ofJsonNumber (.float x finite) = float x := by
  rw [ofJsonNumber_of_ne_int (by simp), JsonNumber.toFloat_float]

private theorem toJson_float {x : Double} (h : Double.isFinite x = true) :
    (float x).toJson = .num (.float x h) := by
  rw [toJson, JsonNumber.ofFloat?_eq_some.mpr ⟨h, rfl⟩]

private theorem toJson_float_of_not_isFinite {x : Double} (h : Double.isFinite x = false) :
    (float x).toJson = .null := by
  rw [toJson, JsonNumber.ofFloat?_eq_none.mpr h]

/-- No double is written as an integer. -/
theorem toJson_float_ne_int (x : Double) (n : Int) : (float x).toJson ≠ .num (.int n) := by
  intro same
  cases h : Double.isFinite x with
  | true =>
    rw [toJson_float h] at same
    cases same
  | false =>
    rw [toJson_float_of_not_isFinite h] at same
    cases same

/-- An integer past 64 bits is read as a double, so it is not written as an integer again. -/
theorem toJson_ofJsonNumber_iff (n : JsonNumber) :
    (ofJsonNumber n).toJson = .num n ↔ n.fits = true := by
  cases n with
  | int n =>
    by_cases h : Word.fits n = true
    · rw [ofJsonNumber_int h]
      exact iff_of_true rfl h
    · rw [ofJsonNumber_of_ne_int (by simpa using h)]
      exact iff_of_false (toJson_float_ne_int _ n) h
  | float x finite =>
    rw [ofJsonNumber_float]
    exact iff_of_true (toJson_float finite) rfl

private theorem wellFormed_ofJsonNumber (n : JsonNumber) : (ofJsonNumber n).WellFormed := by
  cases n with
  | int n =>
    by_cases h : Word.fits n = true
    · rw [ofJsonNumber_int h]
      exact h
    · rw [ofJsonNumber_of_ne_int (by simpa using h)]
      trivial
  | float x finite =>
    rw [ofJsonNumber_float]
    trivial

/-! ### Values that come back -/

mutual

/-- The value with null in place of every infinity and NaN, at every depth. -/
def finitized : Value → Value
  | null => null
  | bool b => bool b
  | int n => int n
  | float x => if Double.isFinite x then float x else null
  | str s => str s
  | arr items => arr (finitizedItems items)
  | obj fields => obj (finitizedFields fields)

def finitizedItems : List Value → List Value
  | [] => []
  | v :: rest => finitized v :: finitizedItems rest

def finitizedFields : List (String × Value) → List (String × Value)
  | [] => []
  | (k, v) :: rest => (k, finitized v) :: finitizedFields rest

end

private theorem ofJson_toJson_float (x : Double) :
    ofJson (float x).toJson = (float x).finitized := by
  rw [finitized]
  cases h : Double.isFinite x with
  | true =>
    rw [toJson_float h, ofJson, ofJsonNumber_float]
    rfl
  | false =>
    rw [toJson_float_of_not_isFinite h]
    rfl

mutual

private theorem ofJson_toJson : (v : Value) → v.WellFormed → ofJson v.toJson = v.finitized
  | null, _ => rfl
  | bool _, _ => rfl
  | int _, h => ofJsonNumber_int h
  | float x, _ => ofJson_toJson_float x
  | str _, _ => rfl
  | arr items, h => congrArg arr (ofJsonItems_toJsonItems items h)
  | obj fields, h => congrArg obj (ofJsonFields_toJsonFields fields h.2)

private theorem ofJsonItems_toJsonItems : (items : List Value) → WellFormedItems items →
    ofJsonItems (toJsonItems items) = finitizedItems items
  | [], _ => rfl
  | v :: rest, h => by
    rw [toJsonItems, ofJsonItems, finitizedItems, ofJson_toJson v h.1,
      ofJsonItems_toJsonItems rest h.2]

private theorem ofJsonFields_toJsonFields : (fields : List (String × Value)) →
    WellFormedFields fields → ofJsonFields (toJsonFields fields) = finitizedFields fields
  | [], _ => rfl
  | (k, v) :: rest, h => by
    rw [toJsonFields, ofJsonFields, finitizedFields, ofJson_toJson v h.1,
      ofJsonFields_toJsonFields rest h.2]

end

/-! ### Documents that come back -/

mutual

private theorem toJson_ofJson_iff :
    (j : Json) → ((ofJson j).toJson = j ↔ ∀ n ∈ j.numbers, n.fits = true)
  | .null => iff_of_true rfl nofun
  | .bool _ => iff_of_true rfl nofun
  | .num n => by
    rw [ofJson, Json.numbers, List.forall_mem_singleton]
    exact toJson_ofJsonNumber_iff n
  | .str _ => iff_of_true rfl nofun
  | .arr items => by
    rw [ofJson, toJson, Json.numbers, Json.arr.injEq, toJsonItems_ofJsonItems_iff items]
  | .obj fields => by
    rw [ofJson, toJson, Json.numbers, Json.obj.injEq, toJsonFields_ofJsonFields_iff fields]

private theorem toJsonItems_ofJsonItems_iff : (items : List Json) →
    (toJsonItems (ofJsonItems items) = items ↔ ∀ n ∈ Json.itemNumbers items, n.fits = true)
  | [] => iff_of_true rfl nofun
  | j :: rest => by
    rw [ofJsonItems, toJsonItems, Json.itemNumbers, List.cons.injEq, toJson_ofJson_iff j,
      toJsonItems_ofJsonItems_iff rest, List.forall_mem_append]

private theorem toJsonFields_ofJsonFields_iff : (fields : List (String × Json)) →
    (toJsonFields (ofJsonFields fields) = fields ↔
      ∀ n ∈ Json.fieldNumbers fields, n.fits = true)
  | [] => iff_of_true rfl nofun
  | (k, j) :: rest => by
    rw [ofJsonFields, toJsonFields, Json.fieldNumbers, List.cons.injEq, Prod.mk.injEq,
      and_iff_right rfl, toJson_ofJson_iff j, toJsonFields_ofJsonFields_iff rest,
      List.forall_mem_append]

end

/-! ### Fields in order -/

private theorem toJsonFields_eq (fields : List (String × Value)) :
    toJsonFields fields = Fields.mapValues toJson fields := by
  induction fields with
  | nil => rfl
  | cons f rest ih =>
    obtain ⟨k, v⟩ := f
    rw [toJsonFields, ih]
    rfl

private theorem ofJsonFields_eq (fields : List (String × Json)) :
    ofJsonFields fields = Fields.mapValues ofJson fields := by
  induction fields with
  | nil => rfl
  | cons f rest ih =>
    obtain ⟨k, j⟩ := f
    rw [ofJsonFields, ih]
    rfl

private theorem wellFormedFields_iff {fields : List (String × Value)} :
    WellFormedFields fields ↔ ∀ e ∈ fields, e.2.WellFormed := by
  induction fields with
  | nil => simp [WellFormedFields]
  | cons e rest ih => rw [WellFormedFields, ih, List.forall_mem_cons]

mutual

/-- The document of a value has its fields in order, so there is nothing to normalize. -/
theorem normalize_toJson : (v : Value) → v.WellFormed → v.toJson.normalize = v.toJson
  | null, _ => rfl
  | bool _, _ => rfl
  | int _, _ => rfl
  | float x, _ => by
    cases h : Double.isFinite x with
    | true =>
      rw [toJson_float h]
      rfl
    | false =>
      rw [toJson_float_of_not_isFinite h]
      rfl
  | str _, _ => rfl
  | arr items, h => by rw [toJson, Json.normalize, normalizeItems_toJsonItems items h]
  | obj fields, h => by
    have sorted : Fields.Sorted (toJsonFields fields) := by
      rw [toJsonFields_eq]
      exact Fields.sorted_mapValues h.1
    rw [toJson, Json.normalize, normalizeFields_toJsonFields fields h.2,
      Fields.ofList_of_sorted sorted]

private theorem normalizeItems_toJsonItems : (items : List Value) → WellFormedItems items →
    Json.normalizeItems (toJsonItems items) = toJsonItems items
  | [], _ => rfl
  | v :: rest, h => by
    rw [toJsonItems, Json.normalizeItems, normalize_toJson v h.1,
      normalizeItems_toJsonItems rest h.2]

private theorem normalizeFields_toJsonFields : (fields : List (String × Value)) →
    WellFormedFields fields → Json.normalizeFields (toJsonFields fields) = toJsonFields fields
  | [], _ => rfl
  | (k, v) :: rest, h => by
    rw [toJsonFields, Json.normalizeFields, normalize_toJson v h.1,
      normalizeFields_toJsonFields rest h.2]

end

mutual

private theorem wellFormed_ofJson_normalize : (j : Json) → (ofJson j.normalize).WellFormed
  | .null => trivial
  | .bool _ => trivial
  | .num n => wellFormed_ofJsonNumber n
  | .str _ => trivial
  | .arr items => wellFormedItems_normalizeItems items
  | .obj fields => by
    rw [Json.normalize, ofJson, ofJsonFields_eq]
    refine ⟨Fields.sorted_mapValues (Fields.sorted_ofList _), wellFormedFields_iff.mpr ?_⟩
    -- collecting the fields may drop some of them, but what it keeps has been normalized
    intro e he
    obtain ⟨f, hf, rfl⟩ := List.mem_map.mp he
    exact wellFormed_of_mem_normalizeFields fields f (Fields.mem_of_mem_ofList hf)

private theorem wellFormedItems_normalizeItems : (items : List Json) →
    WellFormedItems (ofJsonItems (Json.normalizeItems items))
  | [] => trivial
  | j :: rest => ⟨wellFormed_ofJson_normalize j, wellFormedItems_normalizeItems rest⟩

private theorem wellFormed_of_mem_normalizeFields : (fields : List (String × Json)) →
    ∀ f ∈ Json.normalizeFields fields, (ofJson f.2).WellFormed
  | [] => nofun
  | (_, j) :: rest => List.forall_mem_cons.mpr
    ⟨wellFormed_ofJson_normalize j, wellFormed_of_mem_normalizeFields rest⟩

end

/-! ### Round trip -/

/-- A value that is written as a document and read again keeps everything but its infinities and
NaNs, which become null. A document that is read and written again is the same document exactly when
its integers are signed 64-bit ones. Objects keep the order of their fields both ways. -/
theorem json_round_trip :
    (∀ v : WellFormedValue, ofJson v.val.toJson = v.val.finitized ∧
      v.val.toJson.normalize = v.val.toJson) ∧
    ∀ j : Json, ((ofJson j).toJson = j ↔ ∀ n ∈ j.numbers, n.fits = true) ∧
      (ofJson j.normalize).WellFormed :=
  ⟨fun v => ⟨ofJson_toJson v v.property, normalize_toJson v v.property⟩,
    fun j => ⟨toJson_ofJson_iff j, wellFormed_ofJson_normalize j⟩⟩

/-- The extreme integers, whole doubles beside the integers that they denote, a negative zero, and
doubles that no document has. -/
def readings : Value :=
  obj [
    ("range", arr [int Word.least, int Word.greatest, float (Double.ofNat 1), int 1]),
    ("shift", obj [("x", float Double.nan), ("y", float Double.negativeZero)]),
    ("tail", arr [arr [float Double.infinity, int 0], float (Double.ofNat 0)])]

/-- A document with an integer that is one too large. -/
def oversized : Json := .arr [.num (.int (Word.greatest + 1))]

theorem json_round_trip_readings :
    readings.WellFormed ∧
    ofJson readings.toJson = obj [
      ("range", arr [int Word.least, int Word.greatest, float (Double.ofNat 1), int 1]),
      ("shift", obj [("x", null), ("y", float Double.negativeZero)]),
      ("tail", arr [arr [null, int 0], float (Double.ofNat 0)])] ∧
    (ofJson readings.toJson).toJson = readings.toJson ∧
    (ofJson oversized).toJson ≠ oversized := by
  have formed : readings.WellFormed := by
    have shift : Fields.Sorted [("x", float Double.nan), ("y", float Double.negativeZero)] :=
      List.pairwise_pair.mpr (by decide)
    refine ⟨?_, ⟨rfl, rfl, trivial, rfl, trivial⟩, ⟨shift, trivial, trivial, trivial⟩,
      ⟨⟨trivial, rfl, trivial⟩, trivial, trivial⟩, trivial⟩
    simp only [Fields.Sorted, List.pairwise_cons]
    decide
  obtain ⟨values, documents⟩ := json_round_trip
  refine ⟨formed, (values ⟨readings, formed⟩).1.trans rfl, ?_, fun same => ?_⟩
  · exact (documents readings.toJson).1.mpr (by decide)
  · have fits := (documents oversized).1.mp same _ List.mem_cons_self
    exact absurd fits (by decide)

end Value

end Recalc

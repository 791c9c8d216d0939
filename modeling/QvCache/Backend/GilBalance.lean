/-
  QvCache.Backend.GilBalance

  `search_impl` and `fetch_vectors_by_ids` of the Python wrapper as what they do
  with the interpreter lock: `PyGILState_Ensure`, `PyGILState_Release`, and the
  calls of the Python C API in between.  Every call may come out in every way;
  the outcomes of a run are the argument of the functions.

  A null pointer that the code hands on unchecked to a macro or function that
  dereferences it ends the process.  Both functions sit in a `try` block whose
  handler releases; the exits that release by hand before they throw therefore
  release twice.
-/

import QvCache.Lib.Brackets

namespace QvCache

namespace PythonBackendWrapper

open Brackets Traced

/-! ## Calls and their outcomes -/

/-- The functions and macros of the Python and NumPy C APIs that are used. -/
inductive PyCall where
  | errPrint
  | incref
  | decref
  | getAttrString
  | callableCheck
  | callObject
  | longFromUnsignedLong
  | longFromUnsignedLongLong
  | tupleNew
  | tupleSetItem
  | tupleCheck
  | tupleSize
  | tupleGetItem
  | listNew
  | listSetItem
  | listCheck
  | listSize
  | listGetItem
  | arraySimpleNew
  | arrayCheck
  | arrayGetContiguous
  | arrayFromAny
  | arrayNdim
  | arraySize
  | arrayDim
  | arrayData
deriving DecidableEq

abbrev Gil (α : Type) : Type := Traced PyCall String α

def calls : List PyCall → Gil Unit
  | [] => pure ()
  | f :: rest => do
    touch f
    calls rest

/-- `PyObject_GetAttrString` and `PyCallable_Check`. -/
inductive Attribute where
  | null
  | notCallable
  | callable
deriving DecidableEq

structure ArrayView where
  ndim : Nat
  size : Nat
  dim : Nat
  data : Bool

/-- An object and what its conversion to an array gives, `none` for null. -/
structure Convertible where
  isArray : Bool
  array : Option ArrayView

/-- The result of `search`; the items of a tuple may be null. -/
inductive SearchCallResult where
  | null
  | notTuple
  | tuple (items : List (Option Convertible))

/-- For the pointers, `true` is a pointer that is not null. -/
structure SearchOutcomes where
  pythonBackendObj : Bool
  arrayApi : Bool
  queryArray : Bool
  searchMethod : Attribute
  args : Bool
  result : SearchCallResult

/-- An item of the list and its conversion. -/
inductive ItemOutcome where
  | null
  | failed
  | converted
deriving DecidableEq

inductive FetchCallResult where
  | null
  | notList
  | list (items : List ItemOutcome)

structure FetchOutcomes where
  pythonBackendObj : Bool
  idsList : Bool
  fetchMethod : Attribute
  args : Bool
  result : FetchCallResult

/-! ## search_impl -/

/-- Look up a method; whether it can be called. -/
def lookupMethod : Attribute → Gil Bool
  | .null => do
    touch .getAttrString
    pure false
  | .notCallable => do
    calls [.getAttrString, .callableCheck]
    pure false
  | .callable => do
    calls [.getAttrString, .callableCheck]
    pure true

/-- `PyTuple_SetItem`, `PyList_SetItem` or `Py_DECREF` on what may be null. -/
def deref (pointer : Bool) (f : PyCall) : Gil Unit := if pointer then touch f else crash

def createQuery (o : SearchOutcomes) : Gil Unit := do
  touch .arraySimpleNew
  if o.queryArray then touch .arrayData
  else
    touch .errPrint
    throw "Failed to create query numpy array"

def callSearch (o : SearchOutcomes) : Gil Unit := do
  let found ← lookupMethod o.searchMethod
  if found then
    touch .tupleNew
    deref o.args .tupleSetItem
    calls [.longFromUnsignedLongLong, .tupleSetItem, .callObject, .decref, .decref]
  else
    calls [.decref, .errPrint]
    throw "Python backend object does not have a callable 'search' method"

def resultItems : SearchCallResult → Gil (Convertible × Convertible)
  | .null => do
    touch .errPrint
    throw "Python search method call failed"
  | .notTuple => do
    calls [.tupleCheck, .decref]
    throw "Python search method must return a tuple of (tags, distances)"
  | .tuple [tags, dists] => do
    calls [.tupleCheck, .tupleSize, .tupleGetItem, .tupleGetItem]
    match tags, dists with
    | some tags, some dists =>
      calls [.incref, .incref]
      pure (tags, dists)
    | _, _ => crash
  | .tuple _ => do
    calls [.tupleCheck, .tupleSize, .decref]
    throw "Python search method must return a tuple of (tags, distances)"

/-- Convert one of the two; `cleanup` are the objects given back otherwise. -/
def toArray (obj : Convertible) (cleanup : List PyCall) (message : String) : Gil ArrayView := do
  touch .arrayCheck
  touch (if obj.isArray then .arrayGetContiguous else .arrayFromAny)
  match obj.array with
  | some array => pure array
  | none =>
    calls cleanup
    touch .errPrint
    throw message

/-- A check of the two arrays; both and the tuple are given back first. -/
def rejectIf (wrong : Prop) [Decidable wrong] (message : String) : Gil Unit :=
  if wrong then do
    calls [.decref, .decref, .decref]
    throw message
  else pure ()

/-- The checks and the copy; the number of results. -/
def copyResults (K : Nat) (tags dists : ArrayView) : Gil Nat := do
  touch .arrayNdim
  calls (if tags.ndim = 1 then [.arrayNdim] else [])
  rejectIf (tags.ndim ≠ 1 ∨ dists.ndim ≠ 1)
    "Python backend must return 1D arrays for tags and distances"
  calls [.arraySize, .arraySize, .arrayDim, .arrayDim]
  rejectIf (tags.size ≠ tags.dim ∨ dists.size ≠ dists.dim)
    "Array size mismatch - expected 1D arrays"
  let resultSize := min K (min tags.size dists.size)
  rejectIf (resultSize = 0) "Backend returned empty results"
  calls [.arrayData, .arrayData]
  rejectIf (tags.data = false ∨ dists.data = false) "Backend returned null data pointers"
  calls [.decref, .decref, .decref]
  pure (if K ≤ tags.size ∧ K ≤ dists.size then K else resultSize)

def convertResults (K : Nat) (items : Convertible × Convertible) : Gil Nat := do
  let tags ← toArray items.1 [.decref, .decref, .decref] "Failed to convert tags to numpy array"
  let dists ← toArray items.2 [.decref, .decref, .decref, .decref]
    "Failed to convert distances to numpy array"
  calls [.decref, .decref]
  copyResults K tags dists

/-- The `try` block past its first check. -/
def searchWork (o : SearchOutcomes) (K : Nat) : Gil Nat := do
  createQuery o
  callSearch o
  let items ← resultItems o.result
  convertResults K items

def searchBlock (o : SearchOutcomes) (K : Nat) : Gil Nat :=
  if o.arrayApi then searchWork o K
  else do
    release
    throw "NumPy array API not initialized. Call import_array() in module init."

def searchCalls (o : SearchOutcomes) (K : Nat) : Gil Nat :=
  if o.pythonBackendObj then do
    acquire
    let n ← (searchBlock o K).releasing
    release
    pure n
  else throw "Python backend object is null"

/-! ## fetch_vectors_by_ids -/

/-- The loop that fills the list of ids. -/
def fillList (idsList : Bool) : Nat → Gil Unit
  | 0 => pure ()
  | n + 1 => do
    touch .longFromUnsignedLong
    deref idsList .listSetItem
    fillList idsList n

def callFetchMethod (o : FetchOutcomes) : Gil Unit := do
  let found ← lookupMethod o.fetchMethod
  if found then
    touch .tupleNew
    deref o.args .tupleSetItem
    calls [.callObject, .decref, .decref]
  else
    deref o.idsList .decref
    release
    touch .errPrint
    throw "Python backend object does not have a callable 'fetch_vectors_by_ids' method"

/-- The loop that converts the items. -/
def convertItems : List ItemOutcome → Gil Unit
  | [] => pure ()
  | .null :: _ => do
    calls [.listGetItem]
    crash
  | .failed :: _ => do
    calls [.listGetItem, .arrayFromAny, .decref]
    release
    touch .errPrint
    throw "Failed to convert vector to numpy array"
  | .converted :: rest => do
    calls [.listGetItem, .arrayFromAny, .arrayData, .decref]
    convertItems rest

def fetchItems : FetchCallResult → Gil Nat
  | .null => do
    release
    touch .errPrint
    throw "Python fetch_vectors_by_ids method call failed"
  | .notList => do
    calls [.listCheck, .decref]
    release
    throw "Python fetch_vectors_by_ids must return a list"
  | .list items => do
    calls [.listCheck, .listSize]
    convertItems items
    touch .decref
    pure items.length

/-- The `try` block up to its release. -/
def fetchBlock (o : FetchOutcomes) (ids : Nat) : Gil Nat := do
  touch .listNew
  fillList o.idsList ids
  callFetchMethod o
  fetchItems o.result

def fetchCalls (o : FetchOutcomes) (ids : Nat) : Gil Nat :=
  if o.pythonBackendObj then do
    acquire
    releasing do
      let n ← fetchBlock o ids
      release
      pure n
  else throw "Python backend object is null"

/-! ## When they are balanced -/

/-- NumPy is initialized, and no null pointer is dereferenced. -/
def SearchReleasesOnce (o : SearchOutcomes) : Prop :=
  o.pythonBackendObj = true → o.arrayApi = true ∧
    (o.queryArray = true → o.searchMethod = .callable → o.args = true ∧
      ∀ tags dists, o.result = .tuple [tags, dists] → tags.isSome = true ∧ dists.isSome = true)

/-- No call fails; an empty request does without its list. -/
def FetchReleasesOnce (o : FetchOutcomes) (ids : Nat) : Prop :=
  o.pythonBackendObj = true → (o.idsList = true ∨ ids = 0) ∧ o.fetchMethod = .callable ∧
    o.args = true ∧ ∃ items, o.result = .list items ∧ ∀ item ∈ items, item = .converted

/-! ## The contract of the stages -/

theorem holds_calls (fs : List PyCall) (thrown : Option Nat → Prop) : Holds (calls fs) thrown := by
  induction fs with
  | nil => exact holds_pure () thrown
  | cons f rest ih => exact (holds_touch f thrown).bind fun _ => ih

theorem survives_calls (fs : List PyCall) : Survives (calls fs) := by
  induction fs with
  | nil => exact survives_pure ()
  | cons f rest ih => exact (survives_touch f).bind fun _ => ih

theorem holds_lookupMethod (o : Attribute) (thrown : Option Nat → Prop) :
    Holds (lookupMethod o) thrown := by
  cases o with
  | null => exact (holds_touch _ thrown).bind fun _ => holds_pure false thrown
  | notCallable => exact (holds_calls _ thrown).bind fun _ => holds_pure false thrown
  | callable => exact (holds_calls _ thrown).bind fun _ => holds_pure true thrown

theorem holds_deref (pointer : Bool) (f : PyCall) (thrown : Option Nat → Prop) :
    Holds (deref pointer f) thrown := by
  cases pointer with
  | false => exact holds_crash thrown
  | true => exact holds_touch f thrown

theorem holds_raise {α : Type} (message : String) : Holds (throw message : Gil α) (· = some 1) :=
  rfl

/-- Calls, and an exception that leaves the lock held. -/
theorem holds_calls_throw {α : Type} (fs : List PyCall) (message : String) :
    Holds (do calls fs; throw message : Gil α) (· = some 1) :=
  (holds_calls fs _).bind fun _ => holds_raise message

theorem holds_createQuery (o : SearchOutcomes) : Holds (createQuery o) (· = some 1) := by
  refine (holds_touch _ _).bind fun _ => ?_
  split_ifs
  · exact holds_touch _ _
  · exact (holds_touch _ _).bind fun _ => holds_raise _

theorem holds_callSearch (o : SearchOutcomes) : Holds (callSearch o) (· = some 1) := by
  refine (holds_lookupMethod _ _).bind fun found => ?_
  split_ifs
  · exact (holds_touch _ _).bind fun _ => (holds_deref _ _ _).bind fun _ => holds_calls _ _
  · exact holds_calls_throw _ _

theorem holds_resultItems (result : SearchCallResult) :
    Holds (resultItems result) (· = some 1) := by
  unfold resultItems
  split
  · exact (holds_touch _ _).bind fun _ => holds_raise _
  · exact holds_calls_throw _ _
  · refine (holds_calls _ _).bind fun _ => ?_
    split
    · exact (holds_calls _ _).bind fun _ => holds_pure _ _
    · exact holds_crash _
  · exact holds_calls_throw _ _

theorem holds_toArray (obj : Convertible) (cleanup : List PyCall) (message : String) :
    Holds (toArray obj cleanup message) (· = some 1) := by
  refine (holds_touch _ _).bind fun _ => (holds_touch _ _).bind fun _ => ?_
  split
  · exact holds_pure _ _
  · exact (holds_calls _ _).bind fun _ => (holds_touch _ _).bind fun _ => holds_raise _

theorem holds_rejectIf (wrong : Prop) [Decidable wrong] (message : String) :
    Holds (rejectIf wrong message) (· = some 1) := by
  unfold rejectIf
  split_ifs
  · exact holds_calls_throw _ _
  · exact holds_pure _ _

theorem holds_copyResults (K : Nat) (tags dists : ArrayView) :
    Holds (copyResults K tags dists) (· = some 1) := by
  refine (holds_touch _ _).bind fun _ => (holds_calls _ _).bind fun _ => ?_
  refine (holds_rejectIf _ _).bind fun _ => (holds_calls _ _).bind fun _ => ?_
  refine (holds_rejectIf _ _).bind fun _ => (holds_rejectIf _ _).bind fun _ => ?_
  refine (holds_calls _ _).bind fun _ => (holds_rejectIf _ _).bind fun _ => ?_
  exact (holds_calls _ _).bind fun _ => holds_pure _ _

theorem holds_searchWork (o : SearchOutcomes) (K : Nat) :
    Holds (searchWork o K) (· = some 1) := by
  refine (holds_createQuery o).bind fun _ => (holds_callSearch o).bind fun _ => ?_
  refine (holds_resultItems o.result).bind fun items => ?_
  refine (holds_toArray items.1 _ _).bind fun tags => ?_
  refine (holds_toArray items.2 _ _).bind fun dists => ?_
  exact (holds_calls _ _).bind fun _ => holds_copyResults K tags dists

/-! ## search_impl -/

theorem survives_rejectIf (wrong : Prop) [Decidable wrong] (message : String) :
    Survives (rejectIf wrong message) := by
  unfold rejectIf
  split_ifs
  · exact (survives_calls _).bind fun _ => survives_throw message
  · exact survives_pure ()

/-- Past the items of the tuple, nothing is dereferenced unchecked. -/
theorem survives_convertResults (K : Nat) (items : Convertible × Convertible) :
    Survives (convertResults K items) := by
  have harray : ∀ obj cleanup message, Survives (toArray obj cleanup message) := by
    intro obj cleanup message
    refine (survives_touch _).bind fun _ => (survives_touch _).bind fun _ => ?_
    split
    · exact survives_pure _
    · exact (survives_calls _).bind fun _ => (survives_touch _).bind fun _ => survives_throw _
  refine (harray _ _ _).bind fun tags => (harray _ _ _).bind fun dists => ?_
  refine (survives_calls _).bind fun _ => ?_
  refine (survives_touch _).bind fun _ => (survives_calls _).bind fun _ => ?_
  refine (survives_rejectIf _ _).bind fun _ => (survives_calls _).bind fun _ => ?_
  refine (survives_rejectIf _ _).bind fun _ => (survives_rejectIf _ _).bind fun _ => ?_
  refine (survives_calls _).bind fun _ => (survives_rejectIf _ _).bind fun _ => ?_
  exact (survives_calls _).bind fun _ => survives_pure _

/-- The items are taken out of the tuple unless one of them is null. -/
theorem survives_resultItems (result : SearchCallResult) :
    Survives (resultItems result) ↔
      ∀ tags dists, result = .tuple [tags, dists] → tags.isSome = true ∧ dists.isSome = true := by
  rcases result with _ | _ | (_ | ⟨tags, _ | ⟨dists, _ | ⟨_, _⟩⟩⟩)
  · exact iff_of_true (fun h => nomatch h) fun _ _ h => nomatch h
  · exact iff_of_true (fun h => nomatch h) fun _ _ h => nomatch h
  · exact iff_of_true (fun h => nomatch h) fun _ _ h => nomatch h
  · exact iff_of_true (fun h => nomatch h) fun _ _ h => nomatch h
  · cases tags with
    | none => exact iff_of_false (fun h => h rfl) fun h => nomatch (h none dists rfl).1
    | some tags =>
      cases dists with
      | none => exact iff_of_false (fun h => h rfl) fun h => nomatch (h (some tags) none rfl).2
      | some dists =>
        refine iff_of_true (fun h => nomatch h) fun _ _ h => ?_
        obtain ⟨rfl, hrest⟩ := List.cons.inj (SearchCallResult.tuple.inj h)
        obtain ⟨rfl, -⟩ := List.cons.inj hrest
        exact ⟨rfl, rfl⟩
  · exact iff_of_true (fun h => nomatch h) fun _ _ h => nomatch h

theorem survives_searchWork_iff (o : SearchOutcomes) (K : Nat) :
    Survives (searchWork o K) ↔
      (o.queryArray = true → o.searchMethod = .callable → o.args = true ∧
        ∀ tags dists, o.result = .tuple [tags, dists] →
          tags.isSome = true ∧ dists.isSome = true) := by
  obtain ⟨obj, api, queryArray, method, args, result⟩ := o
  cases queryArray with
  | false => exact iff_of_true (fun h => nomatch h) fun h => nomatch h
  | true =>
    cases method with
    | null => exact iff_of_true (fun h => nomatch h) fun _ h => nomatch h
    | notCallable => exact iff_of_true (fun h => nomatch h) fun _ h => nomatch h
    | callable =>
      cases args with
      | false => exact iff_of_false (fun h => h rfl) fun h => nomatch (h rfl rfl).1
      | true =>
        have houtcome : (searchWork ⟨obj, api, true, .callable, true, result⟩ K).outcome =
            (resultItems result >>= convertResults K).outcome := rfl
        rw [Survives, houtcome]
        refine survives_bind_iff.trans ?_
        rw [survives_resultItems]
        constructor
        · exact fun h _ _ => ⟨rfl, h.1⟩
        · exact fun h => ⟨(h rfl rfl).2, fun items _ => survives_convertResults K items⟩

/-- `search_impl` is balanced unless NumPy is not initialized or a null pointer
    is dereferenced. -/
theorem balanced_searchCalls_iff (o : SearchOutcomes) (K : Nat) :
    Balanced (searchCalls o K).events ↔ SearchReleasesOnce o := by
  unfold searchCalls SearchReleasesOnce
  cases hobj : o.pythonBackendObj with
  | false => exact iff_of_true rfl fun h => nomatch h
  | true =>
    rw [if_pos rfl, imp_iff_right rfl]
    unfold searchBlock
    cases hapi : o.arrayApi with
    | false =>
      -- the handler releases a second time
      exact iff_of_false (fun h => nomatch h) fun h => nomatch h.1
    | true =>
      rw [if_pos rfl, balanced_bracket (holds_searchWork o K), and_iff_right rfl]
      exact survives_searchWork_iff o K

/-! ## fetch_vectors_by_ids -/

theorem holds_fillList (idsList : Bool) (n : Nat) (thrown : Option Nat → Prop) :
    Holds (fillList idsList n) thrown := by
  induction n with
  | zero => exact holds_pure () thrown
  | succ n ih =>
    exact (holds_touch _ _).bind fun _ => (holds_deref _ _ _).bind fun _ => ih

/-- A release by hand, and an exception after it. -/
theorem holds_release_throw {α : Type} (message : String) :
    Holds (do release; touch .errPrint; throw message : Gil α) (· ≠ some 1) :=
  fun h => nomatch h

theorem holds_callFetchMethod (o : FetchOutcomes) : Holds (callFetchMethod o) (· ≠ some 1) := by
  refine (holds_lookupMethod _ _).bind fun found => ?_
  split_ifs
  · exact (holds_touch _ _).bind fun _ => (holds_deref _ _ _).bind fun _ => holds_calls _ _
  · exact (holds_deref _ _ _).bind fun _ => holds_release_throw _

theorem holds_convertItems (items : List ItemOutcome) :
    Holds (convertItems items) (· ≠ some 1) := by
  induction items with
  | nil => exact holds_pure () _
  | cons item rest ih =>
    cases item with
    | null => exact (holds_calls _ _).bind fun _ => holds_crash _
    | failed => exact (holds_calls _ _).bind fun _ => holds_release_throw _
    | converted => exact (holds_calls _ _).bind fun _ => ih

theorem holds_fetchBlock (o : FetchOutcomes) (ids : Nat) :
    Holds (fetchBlock o ids) (· ≠ some 1) := by
  refine (holds_touch _ _).bind fun _ => (holds_fillList _ _ _).bind fun _ => ?_
  refine (holds_callFetchMethod o).bind fun _ => ?_
  cases o.result with
  | null => exact holds_release_throw _
  | notList => exact fun h => nomatch h
  | list items =>
    refine (holds_calls _ _).bind fun _ => (holds_convertItems items).bind fun _ => ?_
    exact (holds_touch _ _).bind fun _ => holds_pure _ _

theorem returns_fillList_iff (idsList : Bool) (n : Nat) :
    (fillList idsList n).outcome = .value () ↔ idsList = true ∨ n = 0 := by
  cases n with
  | zero => exact iff_of_true rfl (Or.inr rfl)
  | succ n =>
    cases idsList with
    | false =>
      exact iff_of_false (fun h => nomatch h) fun h => h.elim Bool.noConfusion (Nat.succ_ne_zero n)
    | true =>
      refine iff_of_true ?_ (Or.inl rfl)
      induction n with
      | zero => rfl
      | succ n ih => exact ih

theorem returns_callFetchMethod_iff (o : FetchOutcomes) :
    (callFetchMethod o).outcome = .value () ↔ o.fetchMethod = .callable ∧ o.args = true := by
  obtain ⟨obj, idsList, method, args, result⟩ := o
  cases method with
  | null => cases idsList <;> exact iff_of_false (fun h => nomatch h) fun h => nomatch h.1
  | notCallable => cases idsList <;> exact iff_of_false (fun h => nomatch h) fun h => nomatch h.1
  | callable =>
    cases args with
    | false => exact iff_of_false (fun h => nomatch h) fun h => nomatch h.2
    | true => exact iff_of_true rfl ⟨rfl, rfl⟩

theorem returns_convertItems_iff (items : List ItemOutcome) :
    (convertItems items).outcome = .value () ↔ ∀ item ∈ items, item = .converted := by
  induction items with
  | nil => exact iff_of_true rfl nofun
  | cons item rest ih =>
    rw [List.forall_mem_cons, ← ih]
    cases item with
    | null => exact iff_of_false (fun h => nomatch h) fun h => nomatch h.1
    | failed => exact iff_of_false (fun h => nomatch h) fun h => nomatch h.1
    | converted => exact (and_iff_right rfl).symm

theorem returns_fetchItems_iff (result : FetchCallResult) :
    (∃ n, (fetchItems result).outcome = .value n) ↔
      ∃ items, result = .list items ∧ ∀ item ∈ items, item = .converted := by
  cases result with
  | null => exact iff_of_false (fun ⟨n, h⟩ => nomatch h) fun ⟨items, h, _⟩ => nomatch h
  | notList => exact iff_of_false (fun ⟨n, h⟩ => nomatch h) fun ⟨items, h, _⟩ => nomatch h
  | list items =>
    constructor
    · rintro ⟨n, h⟩
      obtain ⟨_, -, hrest⟩ := returns_bind.mp h
      obtain ⟨_, hitems, -⟩ := returns_bind.mp hrest
      exact ⟨items, rfl, (returns_convertItems_iff items).mp hitems⟩
    · rintro ⟨_, hlist, hitems⟩
      obtain rfl := FetchCallResult.list.inj hlist
      refine ⟨items.length, returns_bind.mpr ⟨(), rfl, returns_bind.mpr ⟨(), ?_, rfl⟩⟩⟩
      exact (returns_convertItems_iff items).mpr hitems

theorem returns_fetchBlock_iff (o : FetchOutcomes) (ids : Nat) :
    (∃ n, (fetchBlock o ids).outcome = .value n) ↔
      (o.idsList = true ∨ ids = 0) ∧ o.fetchMethod = .callable ∧ o.args = true ∧
        ∃ items, o.result = .list items ∧ ∀ item ∈ items, item = .converted := by
  rw [← returns_fillList_iff, ← and_assoc (b := o.args = true), ← returns_callFetchMethod_iff,
    ← returns_fetchItems_iff]
  constructor
  · rintro ⟨n, h⟩
    obtain ⟨_, -, h⟩ := returns_bind.mp h
    obtain ⟨_, hfill, h⟩ := returns_bind.mp h
    obtain ⟨_, hcall, hitems⟩ := returns_bind.mp h
    exact ⟨hfill, hcall, n, hitems⟩
  · rintro ⟨hfill, hcall, n, hitems⟩
    have hcalled : (callFetchMethod o >>= fun _ => fetchItems o.result).outcome = .value n :=
      returns_bind.mpr ⟨(), hcall, hitems⟩
    have hfilled : (fillList o.idsList ids >>= fun _ =>
        callFetchMethod o >>= fun _ => fetchItems o.result).outcome = .value n :=
      returns_bind.mpr ⟨(), hfill, hcalled⟩
    exact ⟨n, returns_bind.mpr ⟨(), rfl, hfilled⟩⟩

/-- `fetch_vectors_by_ids` is balanced only if no call fails. -/
theorem balanced_fetchCalls_iff (o : FetchOutcomes) (ids : Nat) :
    Balanced (fetchCalls o ids).events ↔ FetchReleasesOnce o ids := by
  unfold fetchCalls FetchReleasesOnce
  cases hobj : o.pythonBackendObj with
  | false => exact iff_of_true rfl fun h => nomatch h
  | true =>
    rw [if_pos rfl, imp_iff_right rfl, balanced_handover (holds_fetchBlock o ids)]
    exact returns_fetchBlock_iff o ids

/-- On every path, each acquisition is released exactly once and the API is not
    used afterwards, exactly under these two conditions. -/
theorem gil_balanced_iff (search : SearchOutcomes) (K : Nat) (fetch : FetchOutcomes) (ids : Nat) :
    (Balanced (searchCalls search K).events ↔ SearchReleasesOnce search) ∧
      (Balanced (fetchCalls fetch ids).events ↔ FetchReleasesOnce fetch ids) :=
  ⟨balanced_searchCalls_iff search K, balanced_fetchCalls_iff fetch ids⟩

/-- A call of the Python method that raises: the lock is released, the error is
    printed without it, and the handler releases again. -/
theorem failed_fetch_releases_twice :
    (fetchCalls ⟨true, true, .callable, true, .null⟩ 0).events =
        [.acquire, .touch .listNew, .touch .getAttrString, .touch .callableCheck,
          .touch .tupleNew, .touch .tupleSetItem, .touch .callObject, .touch .decref,
          .touch .decref, .release, .touch .errPrint, .release] ∧
      ¬ Balanced (fetchCalls ⟨true, true, .callable, true, .null⟩ 0).events :=
  ⟨rfl, fun h => nomatch h⟩

end PythonBackendWrapper

end QvCache

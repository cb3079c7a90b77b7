import MonkeyLang.Proofs.Eval.Clean
import MonkeyLang.Proofs.Machine.Basic
/-!
# The values in a machine

A value is somewhere in a machine if the machine has come to it, if a frame
keeps it, or if it is bound in a scope, and then so is everything that it
holds (`State.Holds`). Since all scopes are in the store, what functions
have captured adds nothing: it is enough to look at the parts of values
(`State.holds_iff`).
-/

namespace MonkeyLang

/-! ## Parts of values -/

/-- What tells an array, a hash or a function from others of its kind. -/
def Value.identity? : Value → Option Identity
  | .array id _ => some id
  | .hash id _ => some id
  | .function id _ => some id
  | _ => none

/-- A value is a part of itself, and its elements, keys and values have
their parts for parts of it; a function has none. -/
inductive Value.Part : Value → Value → Prop where
  | refl (v : Value) : Part v v
  | element {id : Identity} {elements : List Value} {v w : Value} :
    v ∈ elements → Part v w → Part (.array id elements) w
  | key {id : Identity} {pairs : Table HashKey (Value × Value)}
    {entry : HashKey × (Value × Value)} {w : Value} :
    entry ∈ pairs.entries → Part entry.2.1 w → Part (.hash id pairs) w
  | value {id : Identity} {pairs : Table HashKey (Value × Value)}
    {entry : HashKey × (Value × Value)} {w : Value} :
    entry ∈ pairs.entries → Part entry.2.2 w → Part (.hash id pairs) w
  | payload {v w : Value} : Part v w → Part (.returned v) w

/-- Whatever has an identity in a value is one of some values. -/
def Value.Within (known : Value → Prop) (v : Value) : Prop :=
  ∀ w, v.Part w → w.identity? ≠ none → known w

namespace Value.Within

variable {known : Value → Prop} {v : Value}

/-- A value without parts and without an identity. -/
theorem of_parts (hidentity : v.identity? = none) (hparts : ∀ w, v.Part w → w = v) :
    v.Within known := by
  intro w hw hne
  obtain rfl := hparts w hw
  exact absurd hidentity hne

/-- What is within some values is within more. -/
theorem mono {known' : Value → Prop} (h : v.Within known) (hle : ∀ w, known w → known' w) :
    v.Within known' :=
  fun w hw hne => hle w (h w hw hne)

theorem int (n : Int64) : Within known (.int n) := of_parts rfl fun _ h => by cases h; rfl
theorem bool (b : Bool) : Within known (.bool b) := of_parts rfl fun _ h => by cases h; rfl
theorem string (text : String) : Within known (.string text) :=
  of_parts rfl fun _ h => by cases h; rfl
theorem null : Within known .null := of_parts rfl fun _ h => by cases h; rfl
theorem builtin (b : Builtin) : Within known (.builtin b) := of_parts rfl fun _ h => by cases h; rfl
theorem error (message : String) : Within known (.error message) :=
  of_parts rfl fun _ h => by cases h; rfl

/-- An array has to be one of them itself, and its elements within them. -/
theorem array {id : Identity} {elements : List Value} (h : known (.array id elements))
    (he : ∀ v ∈ elements, Within known v) : Within known (.array id elements) := by
  intro w hw hne
  cases hw with
  | refl => exact h
  | element hv hw => exact he _ hv w hw hne

/-- And so a hash, with its keys and values. -/
theorem hash {id : Identity} {pairs : Table HashKey (Value × Value)} (h : known (.hash id pairs))
    (he : ∀ entry ∈ pairs.entries, Within known entry.2.1 ∧ Within known entry.2.2) :
    Within known (.hash id pairs) := by
  intro w hw hne
  cases hw with
  | refl => exact h
  | key hentry hw => exact (he _ hentry).1 w hw hne
  | value hentry hw => exact (he _ hentry).2 w hw hne

/-- A function has no parts: what it has captured is in the store. -/
theorem function {id : Identity} {closure : Closure} (h : known (.function id closure)) :
    Within known (.function id closure) := by
  intro w hw hne
  cases hw
  exact h

/-- Being within some values is handed down to the parts. -/
theorem inherited (known : Value → Prop) : Value.Inherited (Within known) where
  int := int
  bool := bool
  string := string
  null := null
  builtin := builtin
  array h _ hv w hw := h w (.element hv hw)
  hash h _ hentry := ⟨fun w hw => h w (.key hentry hw), fun w hw => h w (.value hentry hw)⟩

end Value.Within

namespace Machine

/-! ## Where values are -/

/-- The values that the machine has come to. -/
def Control.held : Control → List Value
  | .stmts last _ => [last]
  | .apply f arguments => f :: arguments
  | .value v => [v]
  | .values vs => vs
  | .entries es => es.flatMap fun entry => [entry.2.1, entry.2.2]
  | .unwind (.returned v) => [v]
  | _ => []

/-- The values that a frame keeps. -/
def Frame.held : Frame → List Value
  | .right _ l => [l]
  | .arguments f => [f]
  | .position l => [l]
  | .elements v => [v]
  | .keyed _ k _ => [k]
  | .entries _ k v => [k, v]
  | _ => []

namespace State

variable {σ σ' : State} {v w : Value}

/-- A value is at hand in the machine. -/
def Has (σ : State) (v : Value) : Prop :=
  v ∈ σ.control.held ∨ (∃ frame ∈ σ.frames, v ∈ frame.held) ∨ σ.store.Bound v

/-- A value is reached from one that is at hand in the machine. -/
def Holds (σ : State) (v : Value) : Prop := ∃ r, σ.Has r ∧ r.Holds σ.store v

/-- **What can be reached are the parts of what is at hand.** -/
theorem holds_iff : σ.Holds v ↔ ∃ r, σ.Has r ∧ r.Part v := by
  constructor
  · rintro ⟨r, hr, hv⟩
    -- where the way leads through a scope, it goes on from what is bound there
    suffices h : r.Part v ∨ ∃ b, σ.store.Bound b ∧ b.Part v by
      rcases h with h | ⟨b, hb, h⟩
      · exact ⟨r, hr, h⟩
      · exact ⟨b, .inr (.inr hb), h⟩
    clear hr
    induction hv with
    | refl v => exact .inl (.refl v)
    | element hmem _ ih => exact ih.imp_left (.element hmem)
    | key hmem _ ih => exact ih.imp_left (.key hmem)
    | value hmem _ ih => exact ih.imp_left (.value hmem)
    | captured _ hsc hget _ ih =>
      rcases ih with h | h
      · exact .inr ⟨_, ⟨_, _, _, hsc, hget⟩, h⟩
      · exact .inr h
    | payload _ ih => exact ih.imp_left .payload
  · rintro ⟨r, hr, hv⟩
    refine ⟨r, hr, ?_⟩
    clear hr
    induction hv with
    | refl v => exact .refl v
    | element hmem _ ih => exact .element hmem ih
    | key hmem _ ih => exact .key hmem ih
    | value hmem _ ih => exact .value hmem ih
    | payload _ ih => exact .payload ih

/-- Whatever has an identity in the machine is one of some values. -/
structure All (known : Value → Prop) (σ : State) : Prop where
  control : ∀ v ∈ σ.control.held, v.Within known
  frames : ∀ frame ∈ σ.frames, ∀ v ∈ frame.held, v.Within known
  store : ∀ v, σ.store.Bound v → v.Within known

/-- It comes to the same to say so of all that can be reached. -/
theorem all_iff {known : Value → Prop} :
    σ.All known ↔ ∀ v, σ.Holds v → v.identity? ≠ none → known v := by
  constructor
  · intro h v hv hne
    obtain ⟨r, hr, hpart⟩ := holds_iff.1 hv
    rcases hr with hr | ⟨frame, hframe, hr⟩ | hr
    · exact h.control r hr v hpart hne
    · exact h.frames frame hframe r hr v hpart hne
    · exact h.store r hr v hpart hne
  · intro h
    refine ⟨fun r hr v hv => h v (holds_iff.2 ⟨r, .inl hr, hv⟩), fun frame hframe r hr v hv => ?_,
      fun r hr v hv => h v (holds_iff.2 ⟨r, .inr (.inr hr), hv⟩)⟩
    exact h v (holds_iff.2 ⟨r, .inr (.inl ⟨frame, hframe, hr⟩), hv⟩)

/-- What a program results in was at hand, or is a message. -/
theorem All.result {known : Value → Prop} (h : σ.All known) (hresult : σ.result? = some v) :
    v.Within known := by
  unfold result? at hresult
  split at hresult
  · next hvalue _ =>
    cases hresult
    exact h.control v (hvalue ▸ .head _)
  · next hreturned _ =>
    cases hresult
    exact h.control v (hreturned ▸ .head _)
  · cases hresult
    exact .error _
  · cases hresult

end State

end Machine

end MonkeyLang

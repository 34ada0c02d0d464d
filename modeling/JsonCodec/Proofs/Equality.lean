/-
Equality of values (`Value.Equal`). It is symmetric and transitive, and a value is equal to itself just
if there is no NaN in it (`Value.beq_self`): what holds one is equal to nothing. Handles are equal by
identity, so what a node stands for does not count (`Value.Part`).
-/
import JsonCodec.Value

namespace JsonCodec

namespace Binary64

variable {x y z : Binary64}

theorem beq_iff : (x == y) = true ↔
    x.isNaN = false ∧ y.isNaN = false ∧ (x = y ∨ x.magnitude = 0 ∧ y.magnitude = 0) := by
  obtain ⟨a⟩ := x
  obtain ⟨b⟩ := y
  change beq ⟨a⟩ ⟨b⟩ = true ↔ _
  simp only [beq, Bool.and_eq_true, Bool.not_eq_true', Bool.or_eq_true, beq_iff_eq, and_assoc,
    Binary64.mk.injEq]

theorem beq_symm (h : (x == y) = true) : (y == x) = true := by
  obtain ⟨hx, hy, hxy⟩ := beq_iff.1 h
  exact beq_iff.2 ⟨hy, hx, hxy.imp Eq.symm And.symm⟩

theorem beq_trans (h : (x == y) = true) (h' : (y == z) = true) : (x == z) = true := by
  obtain ⟨hx, _, hxy⟩ := beq_iff.1 h
  obtain ⟨_, hz, hyz⟩ := beq_iff.1 h'
  refine beq_iff.2 ⟨hx, hz, ?_⟩
  rcases hxy with rfl | ⟨hx0, hy0⟩
  · exact hyz
  · rcases hyz with rfl | ⟨_, hz0⟩
    · exact .inr ⟨hx0, hy0⟩
    · exact .inr ⟨hx0, hz0⟩

theorem beq_self (x : Binary64) : (x == x) = !x.isNaN := by
  rw [Bool.eq_iff_iff, beq_iff, Bool.not_eq_true']
  exact ⟨fun h => h.1, fun h => ⟨h, h, .inl rfl⟩⟩

end Binary64

namespace Value

/-- Whether a value has no parts and is equal to itself alone. -/
def isAtom : Value → Bool
  | .float _ | .array _ | .object _ | .foreign _ _ => false
  | _ => true

/-- The ways in which two values are equal. -/
inductive Equal : Value → Value → Prop
  | atom {v : Value} (h : v.isAtom = true) : Equal v v
  | float {x y : Binary64} (h : (x == y) = true) : Equal (.float x) (.float y)
  | array {vs ws : List Value} (h : beqItems vs ws = true) : Equal (.array vs) (.array ws)
  | object {ms ns : Members} (h : beqMembers ms ns = true) : Equal (.object ms) (.object ns)
  | foreign {id : ForeignId} {name other : String} : Equal (.foreign id name) (.foreign id other)

theorem equal_of_beq {v w : Value} (h : beq v w = true) : Equal v w := by
  rw [beq.eq_def] at h
  split at h
  · exact .atom rfl
  · exact eq_of_beq h ▸ .atom rfl
  · exact eq_of_beq h ▸ .atom rfl
  · exact eq_of_beq h ▸ .atom rfl
  · exact .float h
  · exact eq_of_beq h ▸ .atom rfl
  · exact .array h
  · exact .object h
  · exact eq_of_beq h ▸ .atom rfl
  · exact eq_of_beq h ▸ .atom rfl
  · exact eq_of_beq h ▸ .atom rfl
  · exact eq_of_beq h ▸ .atom rfl
  · exact eq_of_beq h ▸ .atom rfl
  · exact eq_of_beq h ▸ .atom rfl
  · exact eq_of_beq h ▸ .foreign
  · cases h

theorem beq_of_equal {v w : Value} (h : Equal v w) : beq v w = true := by
  cases h with
  | atom h =>
    cases v with
    | float _ | array _ | object _ | foreign _ _ => cases h
    | _ => simp [beq]
  | float h | array h | object h => rwa [beq]
  | foreign => rw [beq, beq_self_eq_true]

theorem beq_iff {v w : Value} : (v == w) = true ↔ Equal v w := ⟨equal_of_beq, beq_of_equal⟩

theorem beq_iff_eq_of_isAtom {v w : Value} (hv : v.isAtom = true) : (v == w) = true ↔ v = w := by
  constructor
  · intro h
    cases beq_iff.1 h with
    | atom => rfl
    | float | array | object | foreign => cases hv
  · intro h
    exact h ▸ beq_iff.2 (.atom hv)

/-! ## Both ways, and on to a third -/

mutual

theorem Equal.symm : {v w : Value} → Equal v w → Equal w v
  | _, _, .atom h => .atom h
  | _, _, .float h => .float (Binary64.beq_symm h)
  | .array vs, .array ws, .array h => .array (beqItems_symm vs ws h)
  | .object ms, .object ns, .object h => .object (beqMembers_symm ms ns h)
  | _, _, .foreign => .foreign

theorem beqItems_symm : (vs ws : List Value) → beqItems vs ws = true → beqItems ws vs = true
  | [], [], _ => rfl
  | v :: vs, w :: ws, h => by
    rw [beqItems, Bool.and_eq_true] at h ⊢
    have hv : Equal v w := equal_of_beq h.1
    exact ⟨beq_of_equal hv.symm, beqItems_symm vs ws h.2⟩
  | [], _ :: _, h | _ :: _, [], h => by cases h

theorem beqMembers_symm : (ms ns : Members) → beqMembers ms ns = true → beqMembers ns ms = true
  | [], [], _ => rfl
  | (j, v) :: ms, (k, w) :: ns, h => by
    simp only [beqMembers, Bool.and_eq_true, and_assoc] at h ⊢
    have hk : Equal j k := equal_of_beq h.1
    have hv : Equal v w := equal_of_beq h.2.1
    exact ⟨beq_of_equal hk.symm, beq_of_equal hv.symm, beqMembers_symm ms ns h.2.2⟩
  | [], _ :: _, h | _ :: _, [], h => by cases h

end

mutual

theorem Equal.trans : {u v w : Value} → Equal u v → Equal v w → Equal u w
  | _, _, _, .atom _, h => h
  | _, _, _, h, .atom _ => h
  | _, _, _, .float h, .float h' => .float (Binary64.beq_trans h h')
  | .array us, .array vs, .array ws, .array h, .array h' => .array (beqItems_trans us vs ws h h')
  | .object ls, .object ms, .object ns, .object h, .object h' =>
    .object (beqMembers_trans ls ms ns h h')
  | _, _, _, .foreign, .foreign => .foreign

theorem beqItems_trans : (us vs ws : List Value) → beqItems us vs = true →
    beqItems vs ws = true → beqItems us ws = true
  | [], [], [], _, _ => rfl
  | u :: us, v :: vs, w :: ws, h, h' => by
    rw [beqItems, Bool.and_eq_true] at h h' ⊢
    have hu : Equal u v := equal_of_beq h.1
    exact ⟨beq_of_equal (hu.trans (equal_of_beq h'.1)), beqItems_trans us vs ws h.2 h'.2⟩
  | [], _ :: _, _, h, _ | _ :: _, [], _, h, _ => by cases h
  | _, [], _ :: _, _, h' | _, _ :: _, [], _, h' => by cases h'

theorem beqMembers_trans : (ls ms ns : Members) → beqMembers ls ms = true →
    beqMembers ms ns = true → beqMembers ls ns = true
  | [], [], [], _, _ => rfl
  | (i, u) :: ls, (j, v) :: ms, (k, w) :: ns, h, h' => by
    simp only [beqMembers, Bool.and_eq_true, and_assoc] at h h' ⊢
    have hi : Equal i j := equal_of_beq h.1
    have hu : Equal u v := equal_of_beq h.2.1
    exact ⟨beq_of_equal (hi.trans (equal_of_beq h'.1)), beq_of_equal (hu.trans (equal_of_beq h'.2.1)),
      beqMembers_trans ls ms ns h.2.2 h'.2.2⟩
  | [], _ :: _, _, h, _ | _ :: _, [], _, h, _ => by cases h
  | _, [], _ :: _, _, h' | _, _ :: _, [], _, h' => by cases h'

end

instance : PartialEquivBEq Value where
  symm h := beq_of_equal (equal_of_beq h).symm
  trans h h' := beq_of_equal ((equal_of_beq h).trans (equal_of_beq h'))

/-! ## A value and itself -/

mutual

/-- Whether there is a NaN in a value: it is one, or an item, a key or a value of a member has one. -/
def hasNaN : Value → Bool
  | .float x => x.isNaN
  | .array vs => itemsHaveNaN vs
  | .object ms => membersHaveNaN ms
  | _ => false

/-- Whether there is a NaN in one of the items. -/
def itemsHaveNaN : List Value → Bool
  | [] => false
  | v :: vs => hasNaN v || itemsHaveNaN vs

/-- Whether there is a NaN in one of the members, its key or its value. -/
def membersHaveNaN : Members → Bool
  | [] => false
  | (key, v) :: ms => hasNaN key || hasNaN v || membersHaveNaN ms

end

mutual

theorem beq_self_eq : (v : Value) → beq v v = !v.hasNaN
  | .float x => by rw [beq, hasNaN, Binary64.beq_self]
  | .array vs => by rw [beq, hasNaN, beqItems_self_eq]
  | .object ms => by rw [beq, hasNaN, beqMembers_self_eq]
  | .null | .bool _ | .int _ | .bigInt _ | .str _ | .dateTime _ | .date _ | .time _ | .uuid _
  | .fragment _ | .shared _ => beq_of_equal (.atom rfl)
  | .foreign _ _ => beq_of_equal .foreign

theorem beqItems_self_eq : (vs : List Value) → beqItems vs vs = !itemsHaveNaN vs
  | [] => rfl
  | v :: vs => by rw [beqItems, itemsHaveNaN, beq_self_eq, beqItems_self_eq, Bool.not_or]

theorem beqMembers_self_eq : (ms : Members) → beqMembers ms ms = !membersHaveNaN ms
  | [] => rfl
  | (key, v) :: ms => by
    rw [beqMembers, membersHaveNaN, beq_self_eq, beq_self_eq, beqMembers_self_eq, Bool.not_or,
      Bool.not_or]

end

/-- **A value is equal to itself just if there is no NaN in it.** -/
theorem beq_self (v : Value) : (v == v) = !v.hasNaN := beq_self_eq v

/-- What has a NaN in it is equal to nothing. -/
theorem exists_beq_iff {v : Value} : (∃ w, (v == w) = true) ↔ v.hasNaN = false := by
  constructor
  · rintro ⟨w, h⟩
    have hself : (v == v) = true := BEq.trans h (BEq.symm h)
    rwa [beq_self, Bool.not_eq_true'] at hself
  · intro h
    exact ⟨v, by rw [beq_self, h, Bool.not_false]⟩

/-! ## The parts of a value -/

/-- `u` is a part of a value: the value itself, or a part of an item, of a key or of the value of a
member. What a handle stands for is no part of it. -/
inductive Part (u : Value) : Value → Prop
  | self : Part u u
  | item {vs : List Value} {v : Value} (hv : v ∈ vs) (h : Part u v) : Part u (.array vs)
  | key {ms : Members} {m : Value × Value} (hm : m ∈ ms) (h : Part u m.1) : Part u (.object ms)
  | member {ms : Members} {m : Value × Value} (hm : m ∈ ms) (h : Part u m.2) : Part u (.object ms)

theorem itemsHaveNaN_of_mem {vs : List Value} {v : Value} (hv : v ∈ vs) (h : v.hasNaN = true) :
    itemsHaveNaN vs = true := by
  induction vs with
  | nil => cases hv
  | cons w vs ih =>
    simp only [itemsHaveNaN, Bool.or_eq_true]
    simp only [List.mem_cons] at hv
    rcases hv with rfl | hv
    · exact .inl h
    · exact .inr (ih hv)

theorem membersHaveNaN_of_mem {ms : Members} {m : Value × Value} (hm : m ∈ ms)
    (h : m.1.hasNaN = true ∨ m.2.hasNaN = true) : membersHaveNaN ms = true := by
  induction ms with
  | nil => cases hm
  | cons n ms ih =>
    obtain ⟨key, v⟩ := n
    simp only [membersHaveNaN, Bool.or_eq_true]
    simp only [List.mem_cons] at hm
    rcases hm with rfl | hm
    · exact .inl h
    · exact .inr (ih hm)

theorem hasNaN_of_part {x : Binary64} {v : Value} (h : Part (.float x) v) (hx : x.isNaN = true) :
    v.hasNaN = true := by
  induction h with
  | self => exact hx
  | item hv _ ih => exact itemsHaveNaN_of_mem hv ih
  | key hm _ ih => exact membersHaveNaN_of_mem hm (.inl ih)
  | member hm _ ih => exact membersHaveNaN_of_mem hm (.inr ih)

mutual

theorem exists_part_of_hasNaN : (v : Value) → v.hasNaN = true →
    ∃ x : Binary64, x.isNaN = true ∧ Part (.float x) v
  | .float x, h => ⟨x, h, .self⟩
  | .array vs, h => by
    obtain ⟨v, hv, x, hx, hpart⟩ := exists_part_of_itemsHaveNaN vs h
    exact ⟨x, hx, .item hv hpart⟩
  | .object ms, h => by
    obtain ⟨m, hm, x, hx, hpart⟩ := exists_part_of_membersHaveNaN ms h
    rcases hpart with hkey | hvalue
    · exact ⟨x, hx, .key hm hkey⟩
    · exact ⟨x, hx, .member hm hvalue⟩
  | .null, h | .bool _, h | .int _, h | .bigInt _, h | .str _, h | .dateTime _, h | .date _, h
  | .time _, h | .uuid _, h | .fragment _, h | .shared _, h | .foreign _ _, h => by cases h

theorem exists_part_of_itemsHaveNaN : (vs : List Value) → itemsHaveNaN vs = true →
    ∃ v ∈ vs, ∃ x : Binary64, x.isNaN = true ∧ Part (.float x) v
  | [], h => by cases h
  | v :: vs, h => by
    simp only [itemsHaveNaN, Bool.or_eq_true] at h
    rcases h with h | h
    · exact ⟨v, List.mem_cons_self, exists_part_of_hasNaN v h⟩
    · obtain ⟨w, hw, hpart⟩ := exists_part_of_itemsHaveNaN vs h
      exact ⟨w, List.mem_cons_of_mem _ hw, hpart⟩

theorem exists_part_of_membersHaveNaN : (ms : Members) → membersHaveNaN ms = true →
    ∃ m ∈ ms, ∃ x : Binary64, x.isNaN = true ∧ (Part (.float x) m.1 ∨ Part (.float x) m.2)
  | [], h => by cases h
  | (key, v) :: ms, h => by
    simp only [membersHaveNaN, Bool.or_eq_true] at h
    rcases h with (h | h) | h
    · obtain ⟨x, hx, hpart⟩ := exists_part_of_hasNaN key h
      exact ⟨(key, v), List.mem_cons_self, x, hx, .inl hpart⟩
    · obtain ⟨x, hx, hpart⟩ := exists_part_of_hasNaN v h
      exact ⟨(key, v), List.mem_cons_self, x, hx, .inr hpart⟩
    · obtain ⟨m, hm, hpart⟩ := exists_part_of_membersHaveNaN ms h
      exact ⟨m, List.mem_cons_of_mem _ hm, hpart⟩

end

/-- A value has a NaN in it just if a NaN is a part of it. -/
theorem hasNaN_iff {v : Value} :
    v.hasNaN = true ↔ ∃ x : Binary64, x.isNaN = true ∧ Part (.float x) v := by
  constructor
  · exact exists_part_of_hasNaN v
  · intro h
    obtain ⟨x, hx, hpart⟩ := h
    exact hasNaN_of_part hpart hx

/-- **Equality goes both ways, and on to a third value. It holds of a value and itself just if no part
of the value is a NaN.** -/
theorem beq_symm_trans_self :
    (∀ a b : Value, (a == b) = true → (b == a) = true) ∧
    (∀ a b c : Value, (a == b) = true → (b == c) = true → (a == c) = true) ∧
    ∀ a : Value, (a == a) = true ↔ ∀ x : Binary64, Part (.float x) a → x.isNaN = false := by
  refine ⟨fun a b h => BEq.symm h, fun a b c h h' => BEq.trans h h', fun a => ?_⟩
  rw [beq_self, Bool.not_eq_true', ← Bool.not_eq_true, hasNaN_iff]
  constructor
  · intro h x hpart
    exact Bool.eq_false_iff.2 fun hx => h ⟨x, hx, hpart⟩
  · intro h hnan
    obtain ⟨x, hx, hpart⟩ := hnan
    rw [h x hpart] at hx
    cases hx

end Value

end JsonCodec

import JavaMinus.Proofs.SelectedLines

/-!
# Heights of the operand stack

How high the operand stack stands before each line of an assembled body. `Instr.Moves` says
how many values a line takes from the stack and how many it leaves; for a call this is read
off the kind of the call and the types in the name of its method. `Leveled body height` says
that `height` is right along every way through the body, jumps included.

The depth that is kept while a body is passed (`Depth.pass`) follows the order of the lines
and knows of jumps only what the last one to a label has left there. It is right all the
same: between two instructions of register code the stack is empty, and of all labels only
the end of a comparison is reached with a value on the stack (`joinHeight`). So the depth
before each line is a height in the sense of `Leveled`, and `depthLimit` is the greatest of
them (`assemble_levels_stack`).
-/

namespace JavaMinus.Assembly

open List

open Code (Inst Operand Reg Call labelName labelName_inj)

variable {name : String} {leaves : Nat}

/-! ## What lines do to the stack -/

/-- How many values a line takes from the stack, and how many it leaves. -/
inductive Instr.Moves : Instr → Nat → Nat → Prop where
  | const {v : Int32} : Moves (.const v) 0 1
  | load {c : Category} {s : Int} : Moves (.load c s) 0 1
  | store {c : Category} {s : Int} : Moves (.store c s) 1 0
  | increment {s v : Int} : Moves (.increment s v) 0 0
  | arith {op : Arith} : Moves (.arith op) 2 1
  | getField {owner field type : String} : Moves (.getField owner field type) 1 1
  | putField {owner field type : String} : Moves (.putField owner field type) 2 0
  | arrayLoad {c : Category} : Moves (.arrayLoad c) 2 1
  | arrayStore {c : Category} : Moves (.arrayStore c) 3 0
  | arrayLength : Moves .arrayLength 1 1
  | invoke {kind : InvokeKind} {params : List Descriptor} {result : Descriptor}
      {owner method : String} {takes : Nat} {leaves : Bool} :
      Moves (.invoke kind.text owner method
          ("(" ++ String.join (params.map Descriptor.text) ++ ")" ++ result.text) takes leaves)
        (params.length + if kind = .static then 0 else 1) (if result = .void then 0 else 1)
  | pop : Moves .pop 1 0
  | new {name : String} : Moves (.new name) 0 1
  | newIntArray : Moves .newIntArray 1 1
  | newRefArray {name : String} : Moves (.newRefArray name) 1 1
  | ifNonzero {t : String} : Moves (.ifNonzero t) 1 0
  | ifLess {t : String} : Moves (.ifLess t) 2 0
  | goto {t : String} : Moves (.goto t) 0 0
  | label {name : String} : Moves (.label name) 0 0
  | valueReturn {c : Category} : Moves (.valueReturn c) 1 0
  | voidReturn : Moves .voidReturn 0 0

/-- The line after this one may be next. -/
def Instr.fallsThrough : Instr → Bool
  | goto _ => false
  | valueReturn _ => false
  | voidReturn => false
  | _ => true

/-- The heights of the operand stack before the lines of a body. No line takes more than
there is, and what it leaves is there wherever the body goes on. -/
structure Leveled (body : List Instr) (height : Nat → Int) : Prop where
  start : height 0 = 0
  nonneg : ∀ p, 0 ≤ height p
  flow : ∀ p i, body[p]? = some i → ∃ takes leaves : Nat, i.Moves takes leaves ∧ takes ≤ height p ∧
    (i.fallsThrough = true → height (p + 1) = height p - takes + leaves) ∧
    ∀ t, i.target? = some t → .label t ∈ body ∧
      ∀ q, body[q]? = some (.label t) → height q = height p - takes + leaves

/-! ## Depths -/

/-- The depth before a line. At a label it is the one that the label sets. -/
def Depth.before (d : Depth) (i : Instr) : Int :=
  match i with
  | .label _ => (d.pass i).now
  | _ => d.now

theorem Depth.now_pass (d : Depth) (i : Instr) : (d.pass i).now = d.before i + i.effect := by
  cases i with
  | label name => exact (Int.add_zero _).symm
  | _ => rfl

open Classical in
/-- The height at a label: there is a value at the end of a comparison, and none elsewhere. -/
noncomputable def joinHeight (name : String) : Int :=
  if ∃ n : Nat, name = labelName "cmp_end" n then 1 else 0

theorem joinHeight_end (n : Nat) : joinHeight (labelName "cmp_end" n) = 1 := if_pos ⟨n, rfl⟩

theorem joinHeight_true (n : Nat) : joinHeight (labelName "cmp_true" n) = 0 :=
  if_neg fun ⟨_, same⟩ => absurd (labelName_inj same).1 (by decide)

theorem joinHeight_of_free (free : ¬ IsComparisonLabel name) : joinHeight name = 0 :=
  if_neg fun ⟨n, same⟩ => free ⟨n, .inr same⟩

theorem joinHeight_nonneg (name : String) : 0 ≤ joinHeight name := by
  unfold joinHeight
  split <;> decide

/-- The depth now, with what was left at labels being their heights. -/
structure Depth.At (d : Depth) (h : Int) : Prop where
  now : d.now = h
  labels : ∀ e ∈ d.atLabel, e.2 = joinHeight e.1

/-- What is known about a line when it is passed, where `live` says that the line before it
goes on with this one. -/
structure Depth.Fits (d : Depth) (live : Bool) (i : Instr) : Prop where
  moves : ∃ takes leaves : Nat, i.Moves takes leaves ∧ i.effect = leaves - takes ∧
    takes ≤ d.before i
  entered : live = true → d.before i = d.now
  joins : ∀ name, i = .label name → d.before i = joinHeight name
  jumps : ∀ t, i.target? = some t → (d.pass i).now = joinHeight t

/-- Every line fits when the lines are passed from a depth on. -/
def Steady (live : Bool) (d : Depth) : List Instr → Prop
  | [] => True
  | i :: rest => d.Fits live i ∧ Steady i.fallsThrough (d.pass i) rest

/-- The last line goes on with the next one. -/
def liveAfter (live : Bool) (lines : List Instr) : Bool :=
  lines.foldl (fun _ i => i.fallsThrough) live

section Depths

variable {d : Depth} {h h' h'' : Int} {live : Bool} {lines lines' : List Instr} {i : Instr}

theorem Depth.At.lookup (there : d.At h) {k : Int} (found : d.atLabel.lookup name = some k) :
    k = joinHeight name := by
  obtain ⟨before, after, split, _⟩ := lookup_eq_some_iff.mp found
  exact there.labels (name, k) (by simp [split])

/-- A line that is no label. -/
theorem Depth.At.pass (there : d.At h) (noLabel : i.label? = none)
    (jumps : ∀ t, i.target? = some t → h + i.effect = joinHeight t) :
    (d.pass i).At (h + i.effect) := by
  have before : d.before i = h := by
    rw [← there.now]
    cases i with
    | label name => cases noLabel
    | _ => rfl
  refine ⟨by rw [Depth.now_pass, before], ?_⟩
  have recorded : (d.pass i).atLabel =
      i.target?.elim d.atLabel fun t => (t, d.now + i.effect) :: d.atLabel := by
    cases i with
    | label name => cases noLabel
    | _ => rfl
  rw [recorded]
  cases target : i.target? with
  | none => exact there.labels
  | some t =>
    refine forall_mem_cons.mpr ⟨?_, there.labels⟩
    rw [there.now]
    exact jumps t target

theorem steady_append : Steady live d (lines ++ lines') ↔
    Steady live d lines ∧ Steady (liveAfter live lines) (lines.foldl Depth.pass d) lines' := by
  induction lines generalizing live d with
  | nil => simp [Steady, liveAfter]
  | cons i rest ih =>
    simp only [cons_append, Steady, foldl_cons, ih, liveAfter, and_assoc]

/-! ## Lines that are passed from one height to another -/

/-- From any depth of the first height the lines can be passed, and lead to the second. -/
def Balanced (h : Int) (lines : List Instr) (h' : Int) : Prop :=
  ∀ (live : Bool) (d : Depth), d.At h → Steady live d lines ∧ (lines.foldl Depth.pass d).At h'

namespace Balanced

theorem nil : Balanced h [] h := fun _ _ there => ⟨trivial, there⟩

theorem append (first : Balanced h lines h') (second : Balanced h' lines' h'') :
    Balanced h (lines ++ lines') h'' := by
  intro live d there
  obtain ⟨steady, middle⟩ := first live d there
  obtain ⟨steady', done⟩ := second (liveAfter live lines) _ middle
  refine ⟨steady_append.mpr ⟨steady, steady'⟩, ?_⟩
  rw [foldl_append]
  exact done

/-- A line that is no label. -/
theorem one {takes : Nat} (moves : i.Moves takes leaves) (effect : i.effect = leaves - takes)
    (enough : takes ≤ h) (after : h' = h + i.effect) (noLabel : i.label? = none)
    (jumps : ∀ t, i.target? = some t → joinHeight t = h') : Balanced h [i] h' := by
  intro live d there
  have before : d.before i = d.now := by
    cases i with
    | label name => cases noLabel
    | _ => rfl
  have passed : (d.pass i).At h' := by
    rw [after]
    exact there.pass noLabel fun t target => by rw [← after, jumps t target]
  refine ⟨⟨⟨⟨takes, leaves, moves, effect, ?_⟩, fun _ => before, ?_, ?_⟩, trivial⟩, passed⟩
  · rw [before, there.now]
    exact enough
  · rintro name rfl
    cases noLabel
  · intro t target
    rw [passed.now, jumps t target]

theorem plain {takes : Nat} (moves : i.Moves takes leaves) (effect : i.effect = leaves - takes)
    (enough : takes ≤ h) (after : h' = h + i.effect) (noLabel : i.label? = none)
    (noTarget : i.target? = none) : Balanced h [i] h' :=
  one moves effect enough after noLabel fun t target => by simp [noTarget] at target

end Balanced

theorem Depth.At.fits_label (there : d.At h) (set : (d.pass (.label name)).now = joinHeight name)
    (entered : live = true → h = joinHeight name) :
    d.Fits live (.label name) ∧ (d.pass (.label name)).At (joinHeight name) := by
  have nonneg := joinHeight_nonneg name
  refine ⟨⟨⟨0, 0, .label, rfl, ?_⟩, fun isLive => ?_, ?_, ?_⟩, set, there.labels⟩
  · change ((0 : Nat) : Int) ≤ (d.pass (.label name)).now
    omega
  · rw [there.now, entered isLive]
    exact set
  · rintro _ ⟨⟩
    exact set
  · rintro t ⟨⟩

theorem Balanced.label (same : joinHeight name = h) : Balanced h [.label name] h := by
  intro live d there
  have set : (d.pass (.label name)).now = joinHeight name := by
    change (d.atLabel.lookup name).getD d.now = joinHeight name
    cases found : d.atLabel.lookup name with
    | none => exact there.now.trans same.symm
    | some k => exact there.lookup found
  obtain ⟨fits, joined⟩ := there.fits_label set fun _ => same.symm
  rw [same] at joined
  exact ⟨⟨fits, trivial⟩, joined⟩

theorem balanced_compare (n : Nat) : Balanced 2 (Frame.compare n) 1 := by
  intro live d there
  have start : Balanced 2
      [.ifLess (labelName "cmp_true" n), .const 0, .goto (labelName "cmp_end" n)] 1 := by
    have test : Balanced 2 [.ifLess (labelName "cmp_true" n)] 0 := by
      refine .one .ifLess rfl (by decide) rfl rfl ?_
      rintro _ ⟨⟩
      exact joinHeight_true n
    have leave : Balanced 1 [.goto (labelName "cmp_end" n)] 1 := by
      refine .one .goto rfl (by decide) rfl rfl ?_
      rintro _ ⟨⟩
      exact joinHeight_end n
    have zero : Balanced 0 [.const 0] 1 := .plain .const rfl (by decide) rfl rfl rfl
    exact test.append (zero.append leave)
  have finish : Balanced 0 [.const 1, .label (labelName "cmp_end" n)] 1 :=
    (Balanced.plain (i := .const 1) .const rfl (by decide) rfl rfl rfl).append
      (.label (joinHeight_end n))
  obtain ⟨steady, middle⟩ := start live d there
  -- The `goto` does not go on with the label, but the test has jumped there.
  have other : (labelName "cmp_true" n == labelName "cmp_end" n) = false := by
    rw [beq_eq_false_iff_ne]
    exact fun same => absurd (labelName_inj same).1 (by decide)
  have jumped : ∃ k, List.lookup (labelName "cmp_true" n) ([.ifLess (labelName "cmp_true" n),
      .const 0, .goto (labelName "cmp_end" n)].foldl Depth.pass d).atLabel = some k := by
    simp [Depth.pass, Instr.target?, lookup_cons, other]
  obtain ⟨k, found⟩ := jumped
  have set : (Depth.pass _ (.label (labelName "cmp_true" n))).now = _ :=
    (congrArg (Option.getD · _) found).trans (middle.lookup found)
  have dead : false = true → (1 : Int) = joinHeight (labelName "cmp_true" n) :=
    fun never => Bool.noConfusion never
  obtain ⟨fits, joined⟩ := middle.fits_label set dead
  rw [joinHeight_true] at joined
  obtain ⟨steady', done⟩ := finish true _ joined
  have whole : Steady live d ([.ifLess (labelName "cmp_true" n), .const 0,
      .goto (labelName "cmp_end" n)] ++ (.label (labelName "cmp_true" n) ::
        [.const 1, .label (labelName "cmp_end" n)])) :=
    steady_append.mpr ⟨steady, fits, steady'⟩
  exact ⟨whole, done⟩

end Depths

/-! ## Selected lines are balanced -/

section

variable {f : Frame} {n : Nat} {lines : List Instr} {h : Int}

theorem balanced_load {o : Option Operand} (loaded : f.load o = .ok lines) (nonneg : 0 ≤ h) :
    Balanced h lines (h + 1) := by
  match o, loaded with
  | some (.imm v t), loaded =>
    cases loaded
    exact .plain .const rfl nonneg rfl rfl rfl
  | some (.reg r), loaded =>
    obtain ⟨s, found, done⟩ := ok_of_bind loaded
    cases done
    exact .plain .load rfl nonneg rfl rfl rfl

theorem balanced_loads {os : List (Option Operand)} (loaded : f.loads os = .ok lines)
    (nonneg : 0 ≤ h) : Balanced h lines (h + os.length) := by
  induction os generalizing h lines with
  | nil =>
    cases loaded
    rw [length_nil, Int.natCast_zero, Int.add_zero]
    exact .nil
  | cons o rest ih =>
    obtain ⟨_, first, loaded⟩ := ok_of_bind loaded
    obtain ⟨_, others, done⟩ := ok_of_bind loaded
    cases done
    have later := ih others (Int.le_add_one nonneg)
    have total : h + 1 + (rest.length : Int) = h + ((o :: rest).length : Nat) := by
      rw [length_cons]
      omega
    rw [total] at later
    exact (balanced_load first nonneg).append later

theorem balanced_store {d : Reg} (stored : f.store d = .ok lines) : Balanced 1 lines 0 := by
  obtain ⟨s, found, done⟩ := ok_of_bind stored
  cases done
  exact .plain .store rfl (by decide) rfl rfl rfl

theorem balanced_pushed {inst : Inst} (loaded : f.loads (pushed inst) = .ok lines) :
    Balanced 0 (objectLines inst ++ lines)
      ((objectLines inst).length + (pushed inst).length : Nat) := by
  have object : Balanced 0 (objectLines inst) ((objectLines inst).length : Nat) := by
    cases inst with
    | getField | putField => exact .plain .load rfl (by decide) rfl rfl rfl
    | _ => exact .nil
  rw [Int.natCast_add]
  exact object.append (balanced_loads loaded (Int.natCast_nonneg _))

/-- Operands, a line that takes them all and leaves a value, and the end of that value. -/
theorem balanced_work {before finish : List Instr} {i : Instr} {count : Nat}
    (operands : Balanced 0 before count) (moves : i.Moves count leaves)
    (effect : i.effect = leaves - count) (noLabel : i.label? = none) (noTarget : i.target? = none)
    (result : Balanced leaves finish 0) : Balanced 0 (before ++ [i] ++ finish) 0 :=
  (operands.append (.plain moves effect (Int.le_refl _) (by omega) noLabel noTarget)).append result

theorem invoke_moves {c : Call} (fits : CallFits c) (takes : Nat) (leaves : Bool) :
    (Instr.invoke c.kind.text (f.cls.qualify c.owner) c.method (callDescriptor f.cls c.params c.ret)
      takes leaves).Moves (c.args.length + if c.kind = .static then 0 else 1)
      (if c.ret.isVoid then 0 else 1) := by
  have kind := fits.kind_text
  have static : (if c.kind = .static then 0 else 1) = if invokeKind c.kind = .static then 0 else 1 := by
    cases c.kind <;> rfl
  have descriptor : callDescriptor f.cls c.params c.ret = "(" ++
      String.join ((c.params.map (descriptorOf f.cls)).map Descriptor.text) ++ ")" ++
      (descriptorOf f.cls c.ret).text := by
    have params : Descriptor.text ∘ descriptorOf f.cls = Assembly.descriptor f.cls :=
      funext (text_descriptorOf f.cls)
    rw [map_map, params, text_descriptorOf, callDescriptor]
  have count : c.args.length = (c.params.map (descriptorOf f.cls)).length := by
    rw [length_map, fits.count]
  have result : (if c.ret.isVoid = true then 0 else 1) =
      if descriptorOf f.cls c.ret = .void then 0 else 1 := by
    simp only [descriptorOf_eq_void]
  rw [kind, static, descriptor, count, result]
  exact .invoke

theorem balanced_finish_call {c : Call} (fits : CallFits c)
    (finished : f.finish (.call c) = .ok lines) :
    Balanced ((if c.ret.isVoid then 0 else 1 : Nat) : Int) lines 0 := by
  cases isDst : c.dst with
  | some d =>
    have value : c.ret.isVoid = false := by
      rw [← Bool.not_eq_true]
      intro isVoid
      simp [fits.result isVoid] at isDst
    simp only [Frame.finish, Inst.dst?, isDst] at finished
    rw [value]
    exact balanced_store finished
  | none =>
    simp only [Frame.finish, Inst.dst?, isDst] at finished
    cases finished
    cases c.ret.isVoid with
    | true => exact .nil
    | false => exact .plain .pop rfl (by decide) rfl rfl rfl

/-- **The lines of an instruction leave the stack as empty as it was.** -/
theorem balanced_select {inst : Inst} (selected : f.select n inst = .ok lines)
    (fits : ∀ c, inst = .call c → CallFits c)
    (label : ∀ name, inst = .label name → joinHeight name = 0)
    (target : ∀ t, inst.target? = some t → joinHeight t = 0) : Balanced 0 lines 0 := by
  cases small : inPlace? inst with
  | some step =>
    obtain ⟨s, found, rfl⟩ := (select_inPlace small).mp selected
    exact .plain .increment rfl (by decide) rfl rfl rfl
  | none =>
  obtain ⟨_, work, result, loaded, worked, finished, rfl⟩ := (select_parts small).mp selected
  have operands := balanced_pushed loaded
  cases inst with
  | assign =>
    cases worked
    exact (operands.append .nil).append (balanced_store finished)
  | binary d op l r =>
    have worked : Balanced 2 work 1 := by
      cases op with
      | less =>
        cases worked
        exact balanced_compare n
      | not | other => cases worked
      | _ =>
        cases worked
        exact .plain .arith rfl (by decide) rfl rfl rfl
    exact (operands.append worked).append (balanced_store finished)
  | unary d op x =>
    cases op with
    | not =>
      cases worked
      have one : Balanced 1 [.const 1] 2 := .plain .const rfl (by decide) rfl rfl rfl
      have flip : Balanced 2 [.arith .xor] 1 := .plain .arith rfl (by decide) rfl rfl rfl
      exact (operands.append (one.append flip)).append (balanced_store finished)
    | _ => cases worked
  | getField =>
    cases worked
    exact balanced_work operands .getField rfl rfl rfl (balanced_store finished)
  | putField =>
    cases worked
    cases finished
    exact balanced_work operands .putField rfl rfl rfl .nil
  | load =>
    cases worked
    exact balanced_work operands .arrayLoad rfl rfl rfl (balanced_store finished)
  | store =>
    cases worked
    cases finished
    exact balanced_work operands .arrayStore rfl rfl rfl .nil
  | length =>
    cases worked
    exact balanced_work operands .arrayLength rfl rfl rfl (balanced_store finished)
  | call c =>
    cases worked
    have count : (objectLines (.call c)).length + (pushed (.call c)).length =
        c.args.length + if c.kind = .static then 0 else 1 := by
      simp only [pushed, objectLines]
      split <;> simp
    rw [count] at operands
    refine balanced_work operands (invoke_moves (fits c rfl) _ _) ?_ rfl rfl
      (balanced_finish_call (fits c rfl) finished)
    cases c.ret.isVoid <;> rfl
  | new =>
    cases worked
    exact balanced_work operands .new rfl rfl rfl (balanced_store finished)
  | newArray =>
    cases worked
    split
    · exact balanced_work operands .newIntArray rfl rfl rfl (balanced_store finished)
    · exact balanced_work operands .newRefArray rfl rfl rfl (balanced_store finished)
  | branch =>
    cases worked
    cases finished
    exact (operands.append (.one .ifNonzero rfl (Int.le_refl _) rfl rfl target)).append .nil
  | goto =>
    cases worked
    cases finished
    exact (operands.append (.one .goto rfl (Int.le_refl _) rfl rfl target)).append .nil
  | label name =>
    cases worked
    cases finished
    exact (operands.append (.label (label name rfl))).append .nil
  | ret =>
    cases worked
    cases finished
    exact balanced_work operands .valueReturn rfl rfl rfl .nil
  | retVoid =>
    cases worked
    cases finished
    exact balanced_work operands .voidReturn rfl rfl rfl .nil
  | hole => cases worked

end

/-- A method whose labels are not those of comparisons, whose jumps lead to labels, and whose
calls can be made. -/
structure Joinable (m : Code.Method) : Prop where
  free : ∀ name, .label name ∈ m.code → ¬ IsComparisonLabel name
  targets : ∀ t ∈ Code.jumpTargets m.code, .label t ∈ m.code
  fits : ∀ call, .call call ∈ m.code → CallFits call

theorem balanced_selectAll {f : Frame} {n : Nat} {code : List Inst} {body : List Instr}
    (selected : f.selectAll n code = .ok body) (fits : ∀ c, .call c ∈ code → CallFits c)
    (labels : ∀ name, .label name ∈ code → joinHeight name = 0)
    (targets : ∀ t ∈ Code.jumpTargets code, joinHeight t = 0) : Balanced 0 body 0 := by
  induction code generalizing n body with
  | nil =>
    cases selected
    exact .nil
  | cons inst rest ih =>
    obtain ⟨lines, others, first, remaining, rfl⟩ := selectAll_cons selected
    have here : Balanced 0 lines 0 := by
      refine balanced_select first ?_ ?_ ?_
      · exact fun c same => fits c (same ▸ mem_cons_self)
      · exact fun name same => labels name (same ▸ mem_cons_self)
      · exact fun t same => targets t (mem_filterMap.mpr ⟨inst, mem_cons_self, same⟩)
    refine here.append (ih remaining ?_ ?_ ?_)
    · exact fun c member => fits c (mem_cons_of_mem _ member)
    · exact fun name member => labels name (mem_cons_of_mem _ member)
    · intro t member
      obtain ⟨inst', there, same⟩ := mem_filterMap.mp member
      exact targets t (mem_filterMap.mpr ⟨inst', mem_cons_of_mem _ there, same⟩)

/-! ## The depth before each line -/

/-- The depth after the lines before a position. -/
def depthAt (body : List Instr) (p : Nat) : Depth := (body.take p).foldl Depth.pass {}

/-- The height of the stack before the line at a position. -/
def stackHeight (body : List Instr) (p : Nat) : Int :=
  match body[p]? with
  | some i => (depthAt body p).before i
  | none => (depthAt body p).now

section Bodies

variable {body : List Instr} {p : Nat} {i : Instr}

theorem stackHeight_of_some (here : body[p]? = some i) :
    stackHeight body p = (depthAt body p).before i := by
  rw [stackHeight, here]

theorem depthAt_succ (here : body[p]? = some i) : depthAt body (p + 1) = (depthAt body p).pass i := by
  rw [depthAt, take_add_one, here, Option.toList_some, foldl_append]
  rfl

theorem liveAfter_take_succ (here : body[p]? = some i) :
    liveAfter true (body.take (p + 1)) = i.fallsThrough := by
  rw [liveAfter, take_add_one, here, Option.toList_some, foldl_append]
  rfl

theorem Steady.fits_at (steady : Steady true {} body) (here : body[p]? = some i) :
    (depthAt body p).Fits (liveAfter true (body.take p)) i := by
  obtain ⟨inside, rfl⟩ := List.getElem?_eq_some_iff.mp here
  rw [← take_append_drop p body, drop_eq_getElem_cons inside] at steady
  exact (steady_append.mp steady).2.1

theorem Steady.stackHeight_succ (steady : Steady true {} body) (here : body[p]? = some i)
    (falls : i.fallsThrough = true) : stackHeight body (p + 1) = stackHeight body p + i.effect := by
  rw [stackHeight_of_some here, ← Depth.now_pass, ← depthAt_succ here]
  cases next : body[p + 1]? with
  | none => rw [stackHeight, next]
  | some j =>
    rw [stackHeight_of_some next]
    exact (steady.fits_at next).entered ((liveAfter_take_succ here).trans falls)

theorem Steady.stackHeight_label (steady : Steady true {} body)
    (here : body[p]? = some (.label name)) : stackHeight body p = joinHeight name := by
  rw [stackHeight_of_some here]
  exact (steady.fits_at here).joins name rfl

theorem depthAt_of_length_le (behind : body.length ≤ p) :
    depthAt body p = body.foldl Depth.pass {} := by
  rw [depthAt, take_of_length_le behind]

theorem leveled_stackHeight (balanced : Balanced 0 body 0)
    (targets : ∀ i ∈ body, ∀ t, i.target? = some t → .label t ∈ body) :
    Leveled body (stackHeight body) := by
  obtain ⟨steady, ended⟩ := balanced true {} ⟨rfl, forall_mem_nil _⟩
  refine ⟨?_, fun p => ?_, fun p i here => ?_⟩
  · cases first : body[0]? with
    | none => rw [stackHeight, first]; rfl
    | some i =>
      rw [stackHeight_of_some first]
      exact (steady.fits_at first).entered rfl
  · cases here : body[p]? with
    | none =>
      rw [stackHeight, here, depthAt_of_length_le (List.getElem?_eq_none_iff.mp here)]
      exact ended.now.ge
    | some i =>
      obtain ⟨takes, leaves, _, _, enough⟩ := (steady.fits_at here).moves
      rw [stackHeight_of_some here]
      exact (Int.natCast_nonneg takes).trans enough
  · obtain ⟨takes, leaves, moves, effect, enough⟩ := (steady.fits_at here).moves
    rw [← stackHeight_of_some here] at enough
    refine ⟨takes, leaves, moves, enough, fun falls => ?_, fun t target => ?_⟩
    · rw [steady.stackHeight_succ here falls, effect]
      omega
    · refine ⟨targets i (mem_of_getElem? here) t target, fun q there => ?_⟩
      have jumped := (steady.fits_at here).jumps t target
      rw [Depth.now_pass, ← stackHeight_of_some here, effect] at jumped
      rw [steady.stackHeight_label there, ← jumped]
      omega

/-! ## The greatest depth -/

/-- The depth now and those at labels are not above the greatest so far. -/
structure Depth.Bounded (d : Depth) : Prop where
  now : d.now ≤ d.greatest
  labels : ∀ e ∈ d.atLabel, e.2 ≤ d.greatest

theorem Depth.greatest_le_pass (d : Depth) (i : Instr) : d.greatest ≤ (d.pass i).greatest := by
  cases i with
  | label name => exact Int.le_refl _
  | _ => exact Int.le_max_left _ _

theorem Depth.Bounded.pass {d : Depth} (bounded : d.Bounded) (i : Instr) : (d.pass i).Bounded := by
  have labels : ∀ {g : Int}, d.greatest ≤ g → ∀ e ∈ d.atLabel, e.2 ≤ g :=
    fun le e member => (bounded.labels e member).trans le
  cases i with
  | label name =>
    refine ⟨?_, bounded.labels⟩
    change (d.atLabel.lookup name).getD d.now ≤ d.greatest
    cases found : d.atLabel.lookup name with
    | none => exact bounded.now
    | some k =>
      obtain ⟨before, after, split, _⟩ := lookup_eq_some_iff.mp found
      exact bounded.labels (name, k) (by simp [split])
  | ifNonzero t | ifLess t | goto t =>
    exact ⟨Int.le_max_right _ _, forall_mem_cons.mpr
      ⟨Int.le_max_right _ _, labels (Int.le_max_left _ _)⟩⟩
  | _ => exact ⟨Int.le_max_right _ _, labels (Int.le_max_left _ _)⟩

theorem Depth.Bounded.foldl {d : Depth} (bounded : d.Bounded) (lines : List Instr) :
    (lines.foldl Depth.pass d).Bounded := by
  induction lines generalizing d with
  | nil => exact bounded
  | cons i rest ih => exact ih (bounded.pass i)

theorem Depth.greatest_le_foldl (d : Depth) (lines : List Instr) :
    d.greatest ≤ (lines.foldl Depth.pass d).greatest := by
  induction lines generalizing d with
  | nil => exact Int.le_refl _
  | cons i rest ih => exact (d.greatest_le_pass i).trans (ih (d.pass i))

theorem Depth.Bounded.before_le {d : Depth} (bounded : d.Bounded) (i : Instr) :
    d.before i ≤ d.greatest := by
  cases i with
  | label name => exact (bounded.pass (.label name)).now
  | _ => exact bounded.now

theorem Depth.Bounded.greatest_pass {d : Depth} (bounded : d.Bounded)
    (stops : i.fallsThrough = false) : (d.pass i).greatest = d.greatest := by
  have kept : ∀ e : Int, e ≤ 0 → max d.greatest (d.now + e) = d.greatest := by
    intro e nonpos
    have now := bounded.now
    exact Int.max_eq_left (by omega)
  cases i with
  | goto | voidReturn => exact kept 0 (Int.le_refl 0)
  | valueReturn => exact kept (-1) (by decide)
  | _ => cases stops

/-- The greatest depth is that from before, the one at the end, or the one before a line. -/
theorem Steady.greatest_cases {live : Bool} {d : Depth} (steady : Steady live d body)
    (bounded : d.Bounded) :
    (body.foldl Depth.pass d).greatest = d.greatest ∨
    (body.foldl Depth.pass d).greatest = (body.foldl Depth.pass d).now ∨
    ∃ p i, body[p]? = some i ∧
      ((body.take p).foldl Depth.pass d).before i = (body.foldl Depth.pass d).greatest := by
  induction body generalizing live d with
  | nil => exact .inl rfl
  | cons i rest ih =>
    rw [foldl_cons]
    rcases ih steady.2 (bounded.pass i) with kept | ended | ⟨p, j, there, found⟩
    · cases falls : i.fallsThrough with
      | false => exact .inl (kept.trans (bounded.greatest_pass falls))
      | true =>
        have either : (d.pass i).greatest = d.greatest ∨ (d.pass i).greatest = (d.pass i).now := by
          cases i with
          | label name => exact .inl rfl
          | _ => exact max_choice _ _
        rcases either with same | new
        · exact .inl (kept.trans same)
        · -- The depth after this line is the one before the next, if there is one.
          cases rest with
          | nil => exact .inr (.inl new)
          | cons j rest =>
            refine .inr (.inr ⟨1, j, rfl, ?_⟩)
            rw [kept, new]
            exact steady.2.1.entered falls
    · exact .inr (.inl ended)
    · exact .inr (.inr ⟨p + 1, j, there, found⟩)

theorem isGreatest_depthLimit (balanced : Balanced 0 body 0) :
    IsGreatest {h | h = 0 ∨ ∃ p < body.length, stackHeight body p = h} (depthLimit body) := by
  obtain ⟨steady, ended⟩ := balanced true {} ⟨rfl, forall_mem_nil _⟩
  have initial : Depth.Bounded {} := ⟨Int.le_refl _, forall_mem_nil _⟩
  constructor
  · rcases steady.greatest_cases initial with zero | last | ⟨p, i, here, found⟩
    · exact .inl zero
    · exact .inl (last.trans ended.now)
    · refine .inr ⟨p, (List.getElem?_eq_some_iff.mp here).1, ?_⟩
      rw [stackHeight_of_some here]
      exact found
  · rintro h (rfl | ⟨p, inside, rfl⟩)
    · exact Depth.greatest_le_foldl {} body
    · rw [stackHeight_of_some (List.getElem?_eq_getElem inside)]
      refine ((initial.foldl (body.take p)).before_le body[p]).trans ?_
      have rest := Depth.greatest_le_foldl (depthAt body p) (body.drop p)
      rw [depthAt, ← foldl_append, take_append_drop] at rest
      exact rest

end Bodies

/-! ## Assembled methods -/

/-- **The operand stack of assembled methods.** There are heights of the stack that are right on
every way through the body of a method, and the limit that is printed is the greatest of
them. -/
theorem assemble_levels_stack {c : Code.Class} {a : Class} (assembled : assemble c = .ok a)
    (joinable : ∀ m ∈ c.methods, Joinable m) {made : Method} (member : made ∈ a.methods) :
    ∃ height limit, Leveled made.body height ∧
      IsGreatest {h | h = 0 ∨ ∃ p < made.body.length, height p = h} limit ∧
      ∃ rest, made.text = ".method public " ++ made.head ++ "\n" ++ "\t.limit stack " ++
        toString limit ++ "\n" ++ rest := by
  obtain ⟨m, there, here⟩ := exists_assembled assembled member
  obtain ⟨free, targets, fits⟩ := joinable m there
  obtain ⟨slots, _, _, _, selected⟩ := assembleMethod_selectAll here
  have labels : ∀ name, .label name ∈ m.code → joinHeight name = 0 :=
    fun name isLabel => joinHeight_of_free (free name isLabel)
  have balanced : Balanced 0 made.body 0 :=
    balanced_selectAll selected fits labels fun t jumped => labels t (targets t jumped)
  refine ⟨stackHeight made.body, depthLimit made.body, leveled_stackHeight balanced ?_,
    isGreatest_depthLimit balanced, ?_⟩
  · exact fun i inBody t target => target_mem_selectAll selected targets inBody target
  · have regroup : ∀ x y z u v w : String,
        x ++ y ++ z ++ u ++ v ++ w = x ++ (y ++ z ++ u ++ v ++ w) := by
      intro x y z u v w
      simp only [String.append_assoc]
    exact ⟨_, regroup _ _ _ _ _ _⟩

theorem joinable_counting : ∀ m ∈ countingClass.methods, Joinable m := by
  intro m member
  obtain ⟨_, _, free, fits⟩ := selectable_counting m member
  refine ⟨free, ?_, fits⟩
  rw [mem_singleton.mp member]
  decide

theorem assemble_levels_counting : ∃ a made, assemble countingClass = .ok a ∧
    (∀ m ∈ countingClass.methods, Joinable m) ∧ made ∈ a.methods ∧
    ∃ height limit, Leveled made.body height ∧
      IsGreatest {h | h = 0 ∨ ∃ p < made.body.length, height p = h} limit ∧
      ∃ rest, made.text = ".method public " ++ made.head ++ "\n" ++ "\t.limit stack " ++
        toString limit ++ "\n" ++ rest := by
  have succeeds : ((assemble countingClass).toOption.bind (·.methods.head?)).isSome = true := by
    decide +kernel
  obtain ⟨made, isMade⟩ := Option.isSome_iff_exists.mp succeeds
  cases assembled : assemble countingClass with
  | error e => simp [assembled, Except.toOption] at isMade
  | ok a =>
    rw [assembled] at isMade
    have member : made ∈ a.methods := mem_of_head? isMade
    exact ⟨a, made, rfl, joinable_counting, member,
      assemble_levels_stack assembled joinable_counting member⟩

end JavaMinus.Assembly

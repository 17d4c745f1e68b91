import ClassWeave.Proofs.Patch.Framing

/-!
Finding a method among others. The search goes past every method that can be told apart from the target, and takes
the first that the target names. It ends at a method that cannot be told apart: one whose name is no text, or one of
the right name whose descriptor is none.
-/

namespace ClassWeave

/-- The declaration that a target stands for, of a method with the given flags. -/
def MethodSignature.declared (target : MethodSignature) (flags : MethodFlags) : MethodShape :=
  ⟨target.owner.text, flags.isStatic, target.name.text = MemberName.constructor.text, target.descriptor⟩

namespace ClassFile

variable {file : ClassFile} {target : MethodSignature} {method : Method} {thisClass : String}

/-- Nothing tells the method apart from the target: it has no name that can be read, or the name of the target and
no descriptor that can be read. -/
def Blurs (file : ClassFile) (target : MethodSignature) (method : Method) : Prop :=
  ∀ name, file.pool.utf8 method.name = .ok name → name = target.name.text ∧
    ∀ text, file.pool.utf8 method.descriptor = .ok text →
      ∀ descriptor, MethodDescriptor.parse text ≠ .ok descriptor

section Matching

theorem matchMethod?_of_names (h : file.Names target method) :
    file.matchMethod? target.owner.text target method = .ok (some (target.declared method.flags)) := by
  have hparse : MethodDescriptor.parse target.descriptor.render = .ok target.descriptor :=
    MethodDescriptor.parse_eq_ok.2 rfl
  refine except_bind_eq_ok.2 ⟨_, mapError_eq_ok.2 h.name, ?_⟩
  rw [if_neg (by simp)]
  refine except_bind_eq_ok.2 ⟨_, mapError_eq_ok.2 h.descriptor, ?_⟩
  rw [hparse]
  dsimp only
  rw [if_neg (by simp)]
  unfold MethodShape.parse
  rw [hparse]
  rfl

theorem not_blurs_of_matchMethod? {found : Option MethodShape}
    (h : file.matchMethod? thisClass target method = .ok found) : ¬file.Blurs target method := by
  intro blurs
  obtain ⟨name, hname, h⟩ := except_bind_eq_ok.1 h
  obtain ⟨hsame, unread⟩ := blurs name (mapError_eq_ok.1 hname)
  rw [if_neg (not_not_intro hsame)] at h
  obtain ⟨text, htext, h⟩ := except_bind_eq_ok.1 h
  split at h
  · cases h
  · next descriptor hparse => exact unread text (mapError_eq_ok.1 htext) descriptor hparse

theorem matchMethod?_of_not_names (clear : ¬file.Blurs target method) (other : ¬file.Names target method) :
    file.matchMethod? thisClass target method = .ok none := by
  unfold Blurs at clear
  push Not at clear
  obtain ⟨name, hname, unlike⟩ := clear
  refine except_bind_eq_ok.2 ⟨name, mapError_eq_ok.2 hname, ?_⟩
  split
  · rfl
  next hsame =>
  have hsame := not_not.1 hsame
  obtain ⟨text, htext, descriptor, hparse⟩ := unlike hsame
  refine except_bind_eq_ok.2 ⟨text, mapError_eq_ok.2 htext, ?_⟩
  rw [hparse]
  dsimp only
  refine if_pos fun hequal => other ⟨hsame ▸ hname, ?_⟩
  rw [htext, ← hequal, MethodDescriptor.parse_eq_ok.1 hparse]

end Matching

section Searching

variable {front rest : List Method} {start : Nat}

/-- The search goes past methods that can be told apart. -/
theorem findMethod?_append (clear : ∀ other ∈ front, ¬file.Blurs target other)
    (unlike : ∀ other ∈ front, ¬file.Names target other) :
    file.findMethod? thisClass target (front ++ rest) start =
      file.findMethod? thisClass target rest (start + front.length) := by
  induction front generalizing start with
  | nil => rfl
  | cons first front ih =>
    obtain ⟨hclear, clear⟩ := List.forall_mem_cons.1 clear
    obtain ⟨hunlike, unlike⟩ := List.forall_mem_cons.1 unlike
    rw [List.cons_append, findMethod?, matchMethod?_of_not_names hclear hunlike]
    dsimp only
    rw [ih clear unlike, List.length_cons, Nat.add_assoc, Nat.add_comm 1]

/-- The search ends at a method that cannot be told apart. -/
theorem findMethod?_of_blurs (blurred : ∃ other ∈ front, file.Blurs target other)
    (unlike : ∀ other ∈ front, ¬file.Names target other) :
    ∃ problem, file.findMethod? thisClass target (front ++ rest) start = .error problem := by
  induction front generalizing start with
  | nil =>
    obtain ⟨other, hm, -⟩ := blurred
    cases hm
  | cons first front ih =>
    obtain ⟨hunlike, unlike⟩ := List.forall_mem_cons.1 unlike
    rw [List.cons_append, findMethod?]
    cases hmatch : file.matchMethod? thisClass target first with
    | error problem => exact ⟨problem, rfl⟩
    | ok found =>
      have hclear := not_blurs_of_matchMethod? hmatch
      cases found with
      | some shape => exact absurd (names_of_matchMethod? hmatch) hunlike
      | none =>
        obtain ⟨other, hm, hblurs⟩ := blurred
        rcases List.mem_cons.1 hm with rfl | hm
        · exact absurd hblurs hclear
        · exact ih ⟨other, hm, hblurs⟩ unlike

variable {position : Nat} {shape : MethodShape}

theorem locate_of_owner (owned : file.name = .ok target.owner.text) :
    file.locate target = do
      match ← file.findMethod? target.owner.text target file.methods 0 with
      | none => return none
      | some (position, method, shape) =>
        match ← file.methodCode position with
        | none => return some ⟨position, method.flags, shape, none⟩
        | some code =>
          let body ← MethodBody.decode code file.pool shape
          return some ⟨position, method.flags, shape, some body⟩ := by
  unfold locate
  rw [owned]
  exact if_neg (by simp)

/-- A method that is found is not lost again. -/
theorem locate_ne_none (owned : file.name = .ok target.owner.text)
    (h : file.findMethod? target.owner.text target file.methods 0 = .ok (some (position, method, shape))) :
    file.locate target ≠ .ok none := by
  rw [locate_of_owner owned, h]
  intro hnone
  obtain ⟨_, hfound, hnone⟩ := except_bind_eq_ok.1 hnone
  cases hfound
  obtain ⟨code?, -, hnone⟩ := except_bind_eq_ok.1 hnone
  cases code? with
  | none => cases hnone
  | some code =>
    obtain ⟨body, -, hnone⟩ := except_bind_eq_ok.1 hnone
    cases hnone

end Searching

/-- The target names the method at the position, and none before it. -/
structure FirstNamed (file : ClassFile) (target : MethodSignature) (position : Nat) (method : Method) : Prop where
  found : file.methods[position]? = some method
  names : file.Names target method
  least : ∀ other ∈ file.methods.take position, ¬file.Names target other

theorem FirstNamed.methods_eq {position : Nat} (h : file.FirstNamed target position method) :
    file.methods = file.methods.take position ++ method :: file.methods.drop (position + 1) ∧
      (file.methods.take position).length = position := by
  obtain ⟨hlt, hmethod⟩ := List.getElem?_eq_some_iff.1 h.found
  refine ⟨?_, List.length_take_of_le hlt.le⟩
  rw [← hmethod, List.getElem_cons_drop, List.take_append_drop]

/-- In the class that owns it, the first method that a target names is found with the body of its code, and nothing
is found where there is none, if the methods in front can be told apart from the target. If one of them cannot, the
search fails. It never gives up a method that is there. -/
theorem finds_named (owned : file.name = .ok target.owner.text) :
    (∀ position method, file.FirstNamed target position method →
      file.locate target ≠ .ok none ∧
      ((∃ other ∈ file.methods.take position, file.Blurs target other) →
        ∃ problem, file.locate target = .error problem) ∧
      ((∀ other ∈ file.methods.take position, ¬file.Blurs target other) →
        (file.methodCode position = .ok none →
          file.locate target = .ok (some ⟨position, method.flags, target.declared method.flags, none⟩)) ∧
        ∀ code body, file.methodCode position = .ok (some code) →
          MethodBody.decode code file.pool (target.declared method.flags) = .ok body →
          file.locate target = .ok (some ⟨position, method.flags, target.declared method.flags, some body⟩))) ∧
    ((∀ method ∈ file.methods, ¬file.Names target method) →
      ((∃ other ∈ file.methods, file.Blurs target other) → ∃ problem, file.locate target = .error problem) ∧
      ((∀ other ∈ file.methods, ¬file.Blurs target other) → file.locate target = .ok none)) := by
  have search (front rest : List Method) (h : file.methods = front ++ rest)
      (unlike : ∀ other ∈ front, ¬file.Names target other) :
      ((∃ other ∈ front, file.Blurs target other) → ∃ problem, file.locate target = .error problem) ∧
        ((∀ other ∈ front, ¬file.Blurs target other) →
          file.findMethod? target.owner.text target file.methods 0 =
            file.findMethod? target.owner.text target rest front.length) := by
    rw [locate_of_owner owned, h]
    refine ⟨fun blurred => ?_, fun clear => ?_⟩
    · obtain ⟨problem, herror⟩ := findMethod?_of_blurs blurred unlike
      exact ⟨problem, by rw [herror]; rfl⟩
    · rw [findMethod?_append clear unlike, Nat.zero_add]
  refine ⟨fun position method first => ?_, fun unlike => ?_⟩
  · obtain ⟨hmethods, hlength⟩ := first.methods_eq
    obtain ⟨blurred, clear⟩ := search _ _ hmethods first.least
    have found (hclear : ∀ other ∈ file.methods.take position, ¬file.Blurs target other) :
        file.findMethod? target.owner.text target file.methods 0 =
          .ok (some (position, method, target.declared method.flags)) := by
      rw [clear hclear, hlength, findMethod?, matchMethod?_of_names first.names]
    refine ⟨?_, blurred, fun hclear => ⟨fun hcode => ?_, fun code body hcode hdecode => ?_⟩⟩
    · by_cases h : ∃ other ∈ file.methods.take position, file.Blurs target other
      · obtain ⟨problem, herror⟩ := blurred h
        rw [herror]
        nofun
      · push Not at h
        exact locate_ne_none owned (found h)
    · rw [locate_of_owner owned]
      exact except_bind_eq_ok.2 ⟨_, found hclear, except_bind_eq_ok.2 ⟨none, mapError_eq_ok.2 hcode, rfl⟩⟩
    · rw [locate_of_owner owned]
      exact except_bind_eq_ok.2 ⟨_, found hclear,
        except_bind_eq_ok.2 ⟨some code, mapError_eq_ok.2 hcode, except_bind_eq_ok.2 ⟨body, hdecode, rfl⟩⟩⟩
  · obtain ⟨blurred, clear⟩ := search file.methods [] (List.append_nil _).symm unlike
    refine ⟨blurred, fun hclear => ?_⟩
    rw [locate_of_owner owned, clear hclear]
    rfl

section Examples

/-- An image of a class `A` with two methods, from its last constants and the bytes of the methods. -/
def pairImage (count : UInt8) (constants methods : Bytes) : Bytes :=
  [0xCA, 0xFE, 0xBA, 0xBE, 0, 0, 0, 52, 0, count, 1, 0, 1, 65, 7, 0, 1, 1, 0, 3, 114, 117, 110, 1, 0, 3, 40, 41, 86] ++
    constants ++ [4, 0x21, 0, 2, 0, 0, 0, 0, 0, 0, 0, 2] ++ methods ++ [0, 0]

/-- Its second method is `run` without parameters, and has code. The first one has a parameter. -/
def overloaded : Bytes :=
  pairImage 7 [1, 0, 4, 40, 73, 41, 86, 1, 0, 4, 67, 111, 100, 101] <|
    [4, 1, 0, 3, 0, 5, 0, 0] ++ [0, 9, 0, 3, 0, 4, 0, 1, 0, 6, 0, 0, 0, 13, 0, 0, 0, 0, 0, 0, 0, 1, 0xB1, 0, 0, 0, 0]

/-- The name of the first method is no modified UTF-8. -/
def unreadable : Bytes :=
  pairImage 6 [1, 0, 1, 0xFF] <| [4, 1, 0, 5, 0, 4, 0, 0] ++ [4, 1, 0, 3, 0, 4, 0, 0]

/-- The first method has the descriptor `(`. -/
def malformed : Bytes :=
  pairImage 6 [1, 0, 1, 40] <| [4, 1, 0, 3, 0, 5, 0, 0] ++ [4, 1, 0, 3, 0, 4, 0, 0]

def runTarget : MethodSignature := ⟨⟨"A", rfl⟩, ⟨"run", rfl⟩, ⟨[], none⟩⟩

/-- A method that none of these classes has. -/
def stopTarget : MethodSignature := { runTarget with name := ⟨"stop", rfl⟩ }

instance (file : ClassFile) (target : MethodSignature) (method : Method) : Decidable (file.Names target method) :=
  decidable_of_iff ((file.pool.utf8 method.name).toOption = some target.name.text ∧
      (file.pool.utf8 method.descriptor).toOption = some target.descriptor.render) <| by
    rw [toOption_eq_some, toOption_eq_some]
    exact ⟨fun h => ⟨h.1, h.2⟩, fun h => ⟨h.1, h.2⟩⟩

/-- Is it the second of two methods that the target names in its class? -/
def namesSecond (file : ClassFile) (target : MethodSignature) : Bool :=
  match file.methods with
  | [first, second] => file.name.toOption = some target.owner.text ∧ ¬file.Names target first ∧ file.Names target second
  | _ => false

theorem firstNamed_of_namesSecond (h : file.namesSecond target = true) :
    file.name = .ok target.owner.text ∧ ∃ first second, file.methods = [first, second] ∧
      file.FirstNamed target 1 second := by
  unfold namesSecond at h
  split at h
  · next first second hmethods =>
    obtain ⟨hname, hunlike, hnames⟩ := of_decide_eq_true h
    refine ⟨toOption_eq_some.1 hname, first, second, hmethods, ⟨by rw [hmethods]; rfl, hnames, ?_⟩⟩
    rw [hmethods]
    exact List.forall_mem_singleton.2 hunlike
  · cases h

/-- Can the method be told apart, and has it a body if the target names it? -/
def foundWhole (file : ClassFile) (target : MethodSignature) (method : Method) : Bool :=
  (file.matchMethod? target.owner.text target method).toOption.isSome &&
    ((file.methodCode 1).toOption.join.any fun code =>
      (MethodBody.decode code file.pool (target.declared method.flags)).toOption.isSome)

theorem not_blurs_of_foundWhole (h : file.foundWhole target method = true) : ¬file.Blurs target method := by
  obtain ⟨found, hmatch⟩ := Option.isSome_iff_exists.1 (Bool.and_eq_true_iff.1 h).1
  exact not_blurs_of_matchMethod? (toOption_eq_some.1 hmatch)

theorem body_of_foundWhole (h : file.foundWhole target method = true) :
    ∃ code body, file.methodCode 1 = .ok (some code) ∧
      MethodBody.decode code file.pool (target.declared method.flags) = .ok body := by
  obtain ⟨code, hcode, hbody⟩ := (Option.any_eq_true _ _).1 (Bool.and_eq_true_iff.1 h).2
  obtain ⟨body, hbody⟩ := Option.isSome_iff_exists.1 hbody
  exact ⟨code, body, toOption_eq_some.1 (Option.join_eq_some_iff.1 hcode), toOption_eq_some.1 hbody⟩

theorem finds_named_overloaded : ∃ file method code body, ClassFile.parse overloaded = .ok file ∧
    file.name = .ok runTarget.owner.text ∧ file.FirstNamed runTarget 1 method ∧
    (∀ other ∈ file.methods.take 1, ¬file.Blurs runTarget other) ∧ file.methodCode 1 = .ok (some code) ∧
    MethodBody.decode code file.pool (runTarget.declared method.flags) = .ok body ∧
    file.locate runTarget = .ok (some ⟨1, method.flags, runTarget.declared method.flags, some body⟩) := by
  have facts : ((ClassFile.parse overloaded).toOption.any fun file =>
      file.namesSecond runTarget && file.methods.all (file.foundWhole runTarget)) = true := by decide +kernel
  obtain ⟨file, hparse, hfacts⟩ := (Option.any_eq_true _ _).1 facts
  obtain ⟨hsecond, hwhole⟩ := Bool.and_eq_true_iff.1 hfacts
  obtain ⟨owned, first, method, hmethods, named⟩ := firstNamed_of_namesSecond hsecond
  rw [hmethods] at hwhole
  have hwhole := List.all_eq_true.1 hwhole
  have clear : ∀ other ∈ file.methods.take 1, ¬file.Blurs runTarget other := by
    rw [hmethods]
    exact List.forall_mem_singleton.2 (not_blurs_of_foundWhole (hwhole first List.mem_cons_self))
  obtain ⟨code, body, hcode, hbody⟩ := body_of_foundWhole (hwhole method (by simp))
  exact ⟨file, method, code, body, toOption_eq_some.1 hparse, owned, named, clear, hcode, hbody,
    (((finds_named owned).1 1 method named).2.2 clear).2 code body hcode hbody⟩

/-- A first method that cannot be told apart hides the second one, and hides that a class has no such method. -/
theorem not_located_behind_blurred :
    (∀ image ∈ [unreadable, malformed], ∃ file method, ClassFile.parse image = .ok file ∧
      file.name = .ok runTarget.owner.text ∧ file.FirstNamed runTarget 1 method ∧ file.methodCode 1 = .ok none ∧
      ∃ problem, file.locate runTarget = .error problem) ∧
    ∃ file, ClassFile.parse unreadable = .ok file ∧ file.name = .ok stopTarget.owner.text ∧
      (∀ method ∈ file.methods, ¬file.Names stopTarget method) ∧
      ∃ problem, file.locate stopTarget = .error problem := by
  refine ⟨fun image himage => ?_, ?_⟩
  · have facts : ([unreadable, malformed].all fun image => (ClassFile.parse image).toOption.any fun file =>
        file.namesSecond runTarget && decide ((file.methodCode 1).toOption = some none ∧
          (file.locate runTarget).toOption = none)) = true := by decide +kernel
    obtain ⟨file, hparse, hfacts⟩ := (Option.any_eq_true _ _).1 (List.all_eq_true.1 facts image himage)
    obtain ⟨hsecond, hfacts⟩ := Bool.and_eq_true_iff.1 hfacts
    obtain ⟨hcode, hlocate⟩ := of_decide_eq_true hfacts
    obtain ⟨owned, first, method, -, named⟩ := firstNamed_of_namesSecond hsecond
    exact ⟨file, method, toOption_eq_some.1 hparse, owned, named, toOption_eq_some.1 hcode, toOption_eq_none.1 hlocate⟩
  · have facts : (ClassFile.parse unreadable).toOption.any (fun file =>
        decide (file.name.toOption = some stopTarget.owner.text ∧
          (∀ method ∈ file.methods, ¬file.Names stopTarget method) ∧
            (file.locate stopTarget).toOption = none)) = true := by decide +kernel
    obtain ⟨file, hparse, hfacts⟩ := (Option.any_eq_true _ _).1 facts
    obtain ⟨owned, unlike, hlocate⟩ := of_decide_eq_true hfacts
    exact ⟨file, toOption_eq_some.1 hparse, toOption_eq_some.1 owned, unlike, toOption_eq_none.1 hlocate⟩

end Examples

end ClassFile

end ClassWeave

import BuilderForge.Php.Class
import BuilderForge.Proofs.KeyedLists
/-
  The table of a class's methods, as what was added to it.

  A class keeps its methods by the folded letters of their names: a method
  takes the place of the one that has its name, else it goes to the end. So
  `IsTable added methods` says what a class holds after the methods `added`
  were added one after the other, and every sequence of additions has it
  (`isTable_addMethods`).
-/

namespace BuilderForge.Php

/-- What method names have in common that mean the same method. -/
def Method.key (m : Method) : Text := Text.fold m.name

theorem putMethod_eq (m : Method) (ms : List Method) : putMethod m ms = putKeyed Method.key m ms := by
  induction ms with
  | nil => rfl
  | cons n ms ih =>
    have hsame : Text.sameFolded n.name m.name = true ↔ n.key = m.key := by
      rw [Text.sameFolded, decide_eq_true_iff]
      rfl
    rw [putMethod, putKeyed, ih]
    by_cases h : n.key = m.key
    · rw [if_pos h, if_pos (hsame.2 h)]
    · rw [if_neg h, if_neg (mt hsame.1 h)]

/-- What a class holds after methods were added to it. -/
def IsTable (added methods : List Method) : Prop := IsKeyed Method.key added methods

theorem isTable_nil : IsTable [] [] := isKeyed_nil

/-- Every sequence of additions makes a table of what was added. -/
theorem isTable_foldl (ms : List Method) {added methods : List Method} (h : IsTable added methods) :
    IsTable (added ++ ms) (ms.foldl (fun t m => putMethod m t) methods) := by
  simp only [putMethod_eq]
  exact isKeyed_foldl ms h

/-- Adding methods changes the methods and nothing else of a class. -/
theorem addMethods_eq (c : Class) (ms : List Method) :
    c.addMethods ms = { c with methods := ms.foldl (fun t m => putMethod m t) c.methods } := by
  induction ms generalizing c with
  | nil => rfl
  | cons m ms ih => exact ih (c.addMethod m)

theorem methods_addMethods (c : Class) (ms : List Method) :
    (c.addMethods ms).methods = ms.foldl (fun t m => putMethod m t) c.methods := by
  rw [addMethods_eq]

theorem fields_addMethods (c : Class) (ms : List Method) : (c.addMethods ms).name = c.name ∧
    (c.addMethods ms).implements = c.implements ∧ (c.addMethods ms).properties = c.properties := by
  rw [addMethods_eq]
  exact ⟨rfl, rfl, rfl⟩

/-- The methods of a class that had none. -/
theorem isTable_addMethods {c : Class} (h : c.methods = []) (ms : List Method) :
    IsTable ms (c.addMethods ms).methods := by
  rw [methods_addMethods, h]
  exact isTable_foldl ms isTable_nil

/-- Whatever methods are added to a class that had none, it holds one for each
folded name, in the order in which these names first came, and each is the one
that came last; looked up by any name, it answers the last one that came of this
name without regard to the case of A to Z, and none if none came. -/
theorem Class.keeps_last_methods (name : Text) (implements : List Text) (properties : List Property)
    (added : List Method) : ∃ methods,
      (Class.mk name implements properties []).addMethods added =
        ⟨name, implements, properties, methods⟩ ∧
      methods.map Method.key = (added.map Method.key).eraseDups ∧
      (∀ m ∈ methods, IsLast Method.key m added) ∧
      ∀ s, ((Class.mk name implements properties []).addMethods added).method? s =
        added.reverse.find? fun m => Text.sameFolded m.name s := by
  have htable : IsTable added ((Class.mk name implements properties []).addMethods added).methods :=
    isTable_addMethods rfl added
  rw [methods_addMethods] at htable
  refine ⟨_, addMethods_eq _ added, htable.keys, htable.last, fun s => ?_⟩
  rw [addMethods_eq]
  exact htable.find?_eq (Text.fold s)

end BuilderForge.Php

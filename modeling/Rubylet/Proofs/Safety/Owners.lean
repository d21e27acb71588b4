import Rubylet.Proofs.Safety.Heights

/-!
# The class of a call

A call without receiver looks for its method in a class first. Inference takes the class whose body
encloses the call, which the index has noted beside its arguments; the machine takes the class that
the running activation belongs to. `call_owner_is_lexical` says that these are the same class in
every run, so that the call goes through the same tables in the same order.

An activation belongs to a class because of the call that started it. The machine decides that at
run time: for an instance it takes the class of the receiver, for a method of the class around the
call that class, for a method outside classes none, and the body of a class belongs to the class.
It is the lexical class every time, because a method is found in the tables under the class it was
defined in (`Graph.Built.method_definition`), which is what keeps activations level with the replay.
-/

namespace Rubylet

open Replay Machine

variable {code : List Instruction} {g : Graph} {m : Machine} {statements : List Node} {n : Nat}
  {i : Instruction} {e : Event} {name : String}

namespace Graph.Built

variable (b : g.Built code)

include b

/-- A call has been noted with the class that is open around it. -/
theorem owner_of_call {count : Option Int} (ho : Occurs code n i e) (hop : i.op = .send name count) :
    (g.record n).call?.isSome ∧ (g.callInfo n).owner = (stateAt code n).currentClass := by
  obtain ⟨r, args, -, hcalls⟩ := b.calls_eq ho hop
  rw [callInfo, b.record_eq ho.1, hcalls]
  exact ⟨rfl, rfl⟩

end Graph.Built

/-- **The class around a call is its class at run time.** Whenever a run of a typed program comes to
a call, the running activation belongs to the class that the index has noted for the call, or both
have none. The tables that dispatch goes through, of that class and then of the methods outside
classes, have the methods that the machine has there, and a call to nil runs the first one found. -/
theorem call_owner_is_lexical {source : String} {code : List Instruction}
    {records : List TypedRecord} (hcode : Program.code source = .ok code)
    (hinfer : infer code = .ok records) (memory : Nat) :
    ∃ g m, Graph.build code = .ok g ∧ Machine.load memory records = .ok m ∧
      ∀ k s i name count, Reaches m k .initial s → m.code[s.next]? = some i →
        i.op = .send name count →
        ∃ a outer, s.frames = a :: outer ∧ ∃ info, (g.record s.next).call? = some info ∧
          a.owner = info.owner ∧
          (∀ other, m.methodOf? a.owner other =
            info.owner.bind fun c => g.index.findMethod other (some c)) ∧
          (∀ other, m.methods.get? other = g.index.findMethod other none) ∧
          g.index.implicitMethod name info.owner =
            (m.methodOf? a.owner name).or (m.methods.get? name) ∧
          ∀ args, m.react a.owner name .nil args =
            ((info.owner.bind fun c => g.index.findMethod name (some c)).map
              (Reaction.call · info.owner)).getD
                (((g.index.findMethod name none).map (Reaction.call · none)).getD
                  (.fail (.undefinedForNil name))) := by
  obtain ⟨statements, g, m, -, hc, rfl⟩ := compiled_of_code hcode hinfer memory
  have b := Graph.built_of_build hc.built
  refine ⟨g, m, hc.built, hc.loads, fun k s i name count hr hi hop => ?_⟩
  obtain ⟨n, frames, l⟩ := s
  obtain ⟨-, hframes⟩ := (stateLevel_initial code).reaches b hc.loaded hr
  obtain ⟨a, outer, rfl⟩ := hframes.exists_cons
  rw [hc.loaded.code_eq, List.getElem?_toArray] at hi
  obtain ⟨e, ho⟩ := b.occurs hi
  obtain ⟨hcall, howner⟩ := b.owner_of_call ho hop
  obtain ⟨info, hinfo⟩ := Option.isSome_iff_exists.mp hcall
  -- Both classes are the one that is open in the text around the call.
  have heq : a.owner = info.owner := by
    rw [hframes.activation.owner, ← howner, Graph.callInfo, hinfo, Option.getD_some]
  refine ⟨a, outer, rfl, info, hinfo, heq, ?_, b.methods_get?_eq hc.loaded, ?_, ?_⟩
  · exact heq ▸ b.methodOf?_eq_bind hc.loaded a.owner
  · rw [heq, b.methodOf?_eq_bind hc.loaded, b.methods_get?_eq hc.loaded, Index.implicitMethod]
  · exact heq ▸ b.react_nil hc.loaded a.owner name

theorem call_owner_is_lexical_descent : ∃ code records, Program.code Sample.descent = .ok code ∧
    infer code = .ok records ∧
    ∃ g m, Graph.build code = .ok g ∧ Machine.load Sample.memory records = .ok m ∧
      ∀ k s i name count, Reaches m k .initial s → m.code[s.next]? = some i →
        i.op = .send name count →
        ∃ a outer, s.frames = a :: outer ∧ ∃ info, (g.record s.next).call? = some info ∧
          a.owner = info.owner ∧
          (∀ other, m.methodOf? a.owner other =
            info.owner.bind fun c => g.index.findMethod other (some c)) ∧
          (∀ other, m.methods.get? other = g.index.findMethod other none) ∧
          g.index.implicitMethod name info.owner =
            (m.methodOf? a.owner name).or (m.methods.get? name) ∧
          ∀ args, m.react a.owner name .nil args =
            ((info.owner.bind fun c => g.index.findMethod name (some c)).map
              (Reaction.call · info.owner)).getD
                (((g.index.findMethod name none).map (Reaction.call · none)).getD
                  (.fail (.undefinedForNil name))) := by
  obtain ⟨code, records, hcode, hinfer⟩ := Sample.exists_typed_descent
  exact ⟨code, records, hcode, hinfer, call_owner_is_lexical hcode hinfer Sample.memory⟩

end Rubylet

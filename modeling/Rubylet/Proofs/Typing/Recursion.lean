import Rubylet.Proofs.Code.Calls
import Rubylet.Proofs.Code.Compiled
import Rubylet.Proofs.Graph.Order
import Rubylet.Proofs.Typing.Cycles
import Rubylet.Proofs.Typing.Flow

/-!
# Recursion

A record takes its type from records that are replayed before it, but for two kinds of edges. A call
takes it from a method, wherever that is defined; and a parameter takes it from the arguments that are
passed for it, wherever that is done. All calls of one name count for a parameter, whichever method
they choose.

So a cycle without a parameter on it that depends on itself goes, time and again, from a call into the
body of a method. Each edge that stays in a body leads back in time (`Source`), and only calls leave
a body: there is a method that can reach a call of itself (`exists_recursion`). What is earlier is
told by blocks. A conditional and a method get their records when they are opened, long before they
have their types, and are not settled until then (`Settled`).

A parameter on a cycle need not mean recursion. In `f(f(1))` the inner call passes its own result for
the parameter of the outer one, and if the method answers its parameter, the parameter depends on
itself (`Graph.FeedsItself`).

* `cycles_are_recursive`: a program without recursion is refused for a cycle only at a parameter that
  depends on itself, and no program with such a parameter is typed.
-/

namespace Rubylet

open Rubylet.Graph Replay Relation

variable {code : List Instruction} {g : Graph} {links : Nat → Nat → Prop} {n v : Nat}
  {i : Instruction} {e : Event} {a d : Dependency} {name : String}

/-! ### Earlier dependencies -/

namespace Replay

/-- One record is settled at a point where the other is not. -/
def Before (code : List Instruction) (r r' : Nat) : Prop :=
  ∃ n ≤ code.length, Settled code n r ∧ ¬ Settled code n r'

end Replay

namespace Graph

/-- The record at which a dependency stands. -/
def placeOf : Dependency → Nat
  | .record n => n
  | .operator site | .send site => site.call

/-- A call takes its type from its site, and that from the operator. -/
def levelOf : Dependency → Nat
  | .operator _ => 0
  | .send _ => 1
  | .record _ => 2

/-- The frame that a dependency takes its type in. A method takes it in its body. -/
def homeOf (code : List Instruction) (d : Dependency) : Option Nat :=
  match code[placeOf d]?.map Instruction.op with
  | some (.defStart _) => some (placeOf d)
  | _ => frameOf code (placeOf d)

/-- One dependency has its type before another one. -/
def Earlier (code : List Instruction) (a d : Dependency) : Prop :=
  Before code (placeOf a) (placeOf d) ∨ placeOf a = placeOf d ∧ levelOf a < levelOf d

theorem homeOf_method (hi : code[n]? = some i) (ho : i.op = .defStart name) :
    homeOf code (.record n) = some n := by
  simp only [homeOf, placeOf, hi, Option.map_some, ho]

theorem homeOf_eq_frameOf (h : ∀ i name, code[placeOf d]? = some i → i.op ≠ .defStart name) :
    homeOf code d = frameOf code (placeOf d) := by
  unfold homeOf
  split
  · next name hop =>
    obtain ⟨i, hi, hop⟩ := Option.map_eq_some_iff.mp hop
    exact absurd hop (h i name hi)
  · rfl

theorem homeOf_of_op (hi : code[placeOf d]? = some i) (ho : ∀ name, i.op ≠ .defStart name) :
    homeOf code d = frameOf code (placeOf d) :=
  homeOf_eq_frameOf fun _ name hj => Option.some.inj (hi.symm.trans hj) ▸ ho name

theorem not_earlier_self : ¬ Earlier code d d := by
  rintro (⟨n, -, h, hn⟩ | ⟨-, hlt⟩)
  · exact hn h
  · exact Nat.lt_irrefl _ hlt

theorem Earlier.trans {c : Dependency} (hr : (trace code).error? = none) (h : Earlier code a d)
    (h' : Earlier code d c) : Earlier code a c := by
  rcases h with ⟨n, hn, ha, hd⟩ | ⟨heq, hlt⟩
  · refine .inl ?_
    rcases h' with ⟨k, hk, hd', hc⟩ | ⟨heq, -⟩
    · refine ⟨k, hk, ha.mono hr ?_ hk, hc⟩
      exact Nat.le_of_not_le fun hle => hd (hd'.mono hr hle hn)
    · exact ⟨n, hn, ha, heq ▸ hd⟩
  · rcases h' with hbefore | ⟨heq', hlt'⟩
    · exact .inl (heq ▸ hbefore)
    · exact .inr ⟨heq.trans heq', Nat.lt_trans hlt hlt'⟩

/-! ### Sources -/

/-- What a dependency may take its type from: something earlier at home, or a method that is called
there. -/
inductive Source (code : List Instruction) (a : Dependency) : Dependency → Prop
  | home {c : Dependency} : homeOf code c = homeOf code a → Earlier code c a → Source code a c
  | call {m : Nat} {j : Instruction} {other : String} : code[m]? = some j → j.op = .defStart other →
      CallsIn code (homeOf code a) other → Source code a (.record m)

/-- What an instruction hands on is earlier than what is not settled when it comes. -/
theorem Source.operand (h : Occurs code n i e) (hv : Operand code n v)
    (hhome : homeOf code a = frameOf code n) (ha : ¬ Settled code n (placeOf a)) : Source code a (.record v) :=
  .home ((homeOf_eq_frameOf hv.value).trans (hv.frame.trans hhome.symm))
    (.inl ⟨n, Nat.le_of_lt h.lt, hv.settled, ha⟩)

theorem not_settled_self : ¬ Settled code n n := fun h => Nat.lt_irrefl n h.lt

end Graph

/-- A call that depends on a method chose it. -/
theorem Wiring.exists_choose {x : Index} {type? : Option Ty} {info : CallInfo} {site : CallSite}
    {m : Nat} (h : sendDependency x type? i info site = .ok (.record m)) :
    ∃ receiver, x.choose receiver i info = .ok (.method m) := by
  unfold sendDependency at h
  split at h
  · cases h
  · cases h
  · next receiver _ =>
    obtain ⟨choice, hc, h⟩ := exists_of_bind_eq_ok h
    -- The dependency is a record, so a method was chosen.
    cases choice with
    | method m' =>
      obtain rfl := Dependency.record.inj (Except.ok.inj h)
      exact ⟨receiver, hc⟩
    | operator => cases h
    | instantiate => cases h

namespace Graph.Built

variable (b : Built code g)

include b

/-- A method that a call chose has the call's name. -/
theorem defStart_of_choose {receiver : Ty} {info : CallInfo} {m : Nat} {count : Option Int}
    (h : g.index.choose receiver i info = .ok (.method m)) (ho : i.op = .send name count) :
    ∃ j, code[m]? = some j ∧ j.op = .defStart name := by
  have hname : i.op.name? = some name := by rw [ho]; rfl
  have found : ∀ {owner}, g.index.findMethod name owner = some m →
      ∃ j, code[m]? = some j ∧ j.op = .defStart name := fun hm =>
    let ⟨j, hj, hop, _⟩ := b.method_definition hm
    ⟨j, hj, hop⟩
  obtain ⟨-, ⟨-, hm⟩ | ⟨c, -, hm⟩⟩ := Index.choose_method h
  · rw [hname, Option.bind_some, Index.implicitMethod] at hm
    -- The method is found in the class the call stands in, or outside of any.
    cases hin : info.owner.bind fun o => g.index.findMethod name (some o) with
    | none =>
      rw [hin, Option.none_or] at hm
      exact found hm
    | some m' =>
      rw [hin, Option.some_or] at hm
      obtain ⟨o, -, ho⟩ := Option.bind_eq_some_iff.mp hin
      exact found (hm ▸ ho)
  · rw [hname, Option.bind_some] at hm
    exact found hm

/-- A call of a graph, at its instruction. -/
theorem exists_send {site : CallSite} (hsite : g.IsSite site.call site) :
    ∃ i name count, Occurs code site.call i (.send site.receiver site.args) ∧
      i.op = .send name count := by
  obtain ⟨d, hd, hds⟩ :
      ∃ d ∈ (g.record site.call).dependencies, d = .send site ∨ d = .operator site :=
    hsite.elim (fun h => ⟨_, h, .inl rfl⟩) fun h => ⟨_, h, .inr rfl⟩
  obtain ⟨i, e, h, -, hevent⟩ := b.edgeFits hd
  obtain ⟨r, args, rfl, heq⟩ := hevent site hds
  obtain ⟨name, count, ho⟩ := h.op_of_send
  obtain ⟨hr, hargs⟩ : r = site.receiver ∧ args = site.args := by rw [heq]; exact ⟨rfl, rfl⟩
  exact ⟨i, name, count, hr ▸ hargs ▸ h, ho⟩

variable (hroles : Roles code links 0 code.length)

include hroles

/-- The value of a branch. -/
theorem source_of_branch {start opener value : Nat} {o : OpenIf} {ifs : List OpenIf}
    (h : Occurs code n i e) (hv : v ∈ e.values) (hifs : (stateAt code n).ifs = o :: ifs)
    (hbranch : Branch code start opener n value) : Source code (.record o.opened) (.record v) := by
  obtain ⟨rest, hbefore⟩ := hbranch.state_eq b.replayed
  obtain ⟨rfl, -⟩ : _ ∧ (stateAt code start).ifs = ifs :=
    List.cons.inj ((congrArg State.ifs hbefore).symm.trans hifs)
  obtain ⟨origin, hop⟩ := hbranch.opened
  refine .operand h (h.operand b.replayed hroles hv) ?_ fun hs => ?_
  · exact (homeOf_of_op hop (by simp)).trans hbranch.frameOf_opener
  · exact hs.closed (.inl ⟨_, hifs ▸ .head _, rfl⟩)

/-- The edges of a record that is not a parameter. -/
theorem source_of_edge (h : Edge code g.index n d)
    (harg : ∀ i index, code[n]? = some i → i.op ≠ .pushArg index)
    (hgiven : ∀ m, d = .record m → (g.record m).given? = none) : Source code (.record n) d := by
  have hr := b.replayed
  cases h with
  | assigned h =>
    obtain ⟨name, ho⟩ := h.op_of_setVar
    exact .operand h (h.operand hr hroles (.head _)) (homeOf_of_op h.1 (by simp [ho]))
      not_settled_self
  | again h ho hf hj =>
    -- An assignment takes its type from what the first one was handed, and comes after that.
    refine .operand hj (hj.operand hr hroles (.head _)) ?_ fun hs => ?_
    · exact (homeOf_of_op h.1 (by simp [ho])).trans hf.assigns.2.symm
    · exact Nat.lt_asymm hf.lt hs.lt
  | read h ho hf =>
    obtain ⟨⟨j, hj, hop⟩, hframe⟩ := hf.assigns
    refine .home ?_ (.inl ⟨n, Nat.le_of_lt h.lt, ?_, not_settled_self⟩)
    · exact (homeOf_of_op (d := .record _) hj (by simp [hop])).trans
        (hframe.trans (homeOf_of_op (d := .record _) h.1 (by simp [ho])).symm)
    · exact settled_of_lt hr hj (by simp [hop]) (by simp [hop]) hf.lt (Nat.le_of_lt h.lt)
  | const h ho hinfo =>
    -- A class has its type from the start.
    have hclass := hgiven _ rfl
    obtain ⟨j, hj, hop⟩ := b.class_definition hinfo
    rw [b.record_eq hj, hop] at hclass
    cases hclass
  | passed h ho _ _ _ => exact absurd ho (harg _ _ h.1)
  | @sent _ i r args _ h hd =>
    obtain ⟨name, count, ho⟩ := h.op_of_send
    have hhome : homeOf code (.record n) = frameOf code n := homeOf_of_op h.1 (by simp [ho])
    -- Only the choice of a method leads out of the frame that the call stands in.
    rcases Wiring.sendDependency_cases hd with ⟨m, rfl⟩ | rfl | rfl
    · obtain ⟨receiver, hchoose⟩ := Wiring.exists_choose hd
      obtain ⟨j, hj, hop⟩ := b.defStart_of_choose hchoose ho
      exact .call hj hop ⟨n, i, count, h.1, ho, hhome.symm⟩
    · exact .home rfl (.inr ⟨rfl, Nat.zero_lt_two⟩)
    · exact .home rfl (.inr ⟨rfl, Nat.one_lt_two⟩)
  | result h =>
    obtain ⟨name, ho⟩ := h.op_of_defEnd
    obtain ⟨_, _, _, _, hdefs, -, he, -⟩ := h.defEnd ho
    obtain ⟨rfl, -⟩ := Event.defEnd.inj he
    have hrole := hroles _ _ (Nat.zero_le _) h.lt h.1
    rw [ho] at hrole
    obtain ⟨d, j, _, other, _, hcloses, hj, hop, hends, -⟩ := hrole
    obtain ⟨rfl, -⟩ := Event.defEnd.inj (h.unique hends).2
    -- The body is the home of the method, and the method is open until the body ends.
    refine .operand h (h.operand hr hroles (.head _)) ?_ fun hs => ?_
    · rw [homeOf_method hj hop, frameOf, hcloses.openers_eq]
      rfl
    · exact hs.closed (.inr (hdefs ▸ .head _))
  | @branch q _ _ v h =>
    have ho := h.op_of_ifElse
    obtain ⟨o, _, _, _, hifs, -, he, -⟩ := h.ifElse ho
    obtain ⟨rfl, -⟩ := Event.ifElse.inj he
    have hrole := hroles _ _ (Nat.zero_le _) h.lt h.1
    rw [ho] at hrole
    obtain ⟨_, _, _, _, -, -, -, hbranch, -⟩ := hrole
    exact b.source_of_branch hroles h (.head _) hifs hbranch
  | @join q _ _ v h =>
    have ho := h.op_of_ifEnd
    obtain ⟨o, _, _, _, hifs, -, he, -⟩ := h.ifEnd ho
    obtain ⟨rfl, -⟩ := Event.ifEnd.inj he
    have hrole := hroles _ _ (Nat.zero_le _) h.lt h.1
    rw [ho] at hrole
    obtain ⟨_, _, _, hbranch, -⟩ := hrole
    exact b.source_of_branch hroles h (.head _) hifs hbranch

/-- **What a dependency takes its type from** is earlier at home or a method that is called there,
unless it is a parameter or takes it from what has its type from the start. -/
theorem source_of_dependsOn (hown : Inference.Owned g a) (h : g.DependsOn a d)
    (harg : ∀ n i index, a = .record n → code[n]? = some i → i.op ≠ .pushArg index)
    (hgiven : ∀ m, d = .record m → (g.record m).given? = none) : Source code a d := by
  have hr := b.replayed
  -- A call hands on its receiver and its arguments, whichever of its nodes takes a type from them.
  have operand : ∀ {site : CallSite} {r : Nat}, g.IsSite site.call site →
      r ∈ site.receiver :: site.args → placeOf a = site.call → Source code a (.record r) := by
    intro site r hsite hmem hplace
    obtain ⟨i, name, count, hocc, ho⟩ := b.exists_send hsite
    refine .operand hocc (hocc.operand hr hroles hmem) ?_ (hplace ▸ not_settled_self)
    rw [← hplace] at hocc ⊢
    exact homeOf_of_op hocc.1 (by simp [ho])
  cases h with
  | edge _ hd =>
    exact b.source_of_edge hroles ((b.edge_iff hroles).mp hd) (fun i index => harg _ i index rfl)
      hgiven
  | operand => exact operand hown (.head _) rfl
  | argument hargs => exact operand hown (.tail _ (hargs ▸ .head _)) rfl
  | receiver => exact operand (.inl hown) (.head _) rfl
  | @method site m ht =>
    obtain ⟨i, name, count, hocc, ho⟩ := b.exists_send (.inl hown)
    obtain ⟨-, -, -, hd⟩ := ht
    obtain ⟨choice, hchoose, hfound⟩ := dispatch_cases hd
    rw [b.record_eq hocc.1] at hchoose
    cases choice with
    | method m' =>
      obtain rfl := Target.method.inj hfound
      obtain ⟨j, hj, hop⟩ := b.defStart_of_choose hchoose ho
      refine .call hj hop ⟨site.call, i, count, hocc.1, ho, ?_⟩
      exact (homeOf_of_op (d := .send site) hocc.1 (by simp [ho])).symm
    | operator => cases hfound
    | instantiate =>
      obtain ⟨_, -, hfound⟩ := hfound
      cases hfound
  | primitive ht =>
    obtain rfl := Inference.site_of_hasTarget b.isWired hown ht
    exact .home rfl (.inr ⟨rfl, Nat.zero_lt_one⟩)

end Graph.Built

/-! ### Cycles -/

/-- A cycle goes through steps that lie on it. -/
theorem transGen_of_cycle {α : Type} {R Q : α → α → Prop} {a : α} (h : TransGen R a a)
    (hQ : ∀ b c, ReflTransGen R a b → R b c → ReflTransGen R c a → Q b c) : TransGen Q a a := by
  suffices hall : ∀ b, TransGen R a b → ReflTransGen R b a → TransGen Q a b from hall a h .refl
  intro b hb
  induction hb with
  | single hstep => exact fun hback => .single (hQ _ _ .refl hstep hback)
  | tail hpath hstep ih =>
    exact fun hback => .tail (ih (.head hstep hback)) (hQ _ _ hpath.to_reflTransGen hstep hback)

/-- What a dependency of the graph depends on is one. -/
theorem Inference.Owned.of_dependsOn (w : g.Wired) (h : Inference.Owned g a)
    (hd : ReflTransGen g.DependsOn a d) : Inference.Owned g d := by
  induction hd with
  | refl => exact h
  | tail _ hstep ih =>
    cases hstep with
    | edge _ hd => exact Inference.owned_of_mem w hd
    | operand | argument | receiver | method => trivial
    | primitive ht =>
      obtain rfl := Inference.site_of_hasTarget w ih ht
      exact .inl ih

namespace Graph

/-- A path of sources stays at home and goes back in time, or it leads by way of calls into the body
of a method. -/
theorem path_cases (hr : (trace code).error? = none) (h : TransGen (Source code) a d) :
    (homeOf code d = homeOf code a ∧ Earlier code d a) ∨
      ∃ name m j other, CallsIn code (homeOf code a) name ∧
        ReflTransGen (Replay.BodyCalls code) name other ∧ homeOf code d = some m ∧
          code[m]? = some j ∧ j.op = .defStart other := by
  -- On the path: as long as no call is taken it runs backwards within one home.
  induction h with
  | single hstep =>
    cases hstep with
    | home hhome hearlier => exact .inl ⟨hhome, hearlier⟩
    | call hj hop hcall => exact .inr ⟨_, _, _, _, hcall, .refl, homeOf_method hj hop, hj, hop⟩
  | tail _ hstep ih =>
    -- The last step stays in the home it has reached, or takes a call out of it.
    rcases ih with ⟨hhome, hearlier⟩ | ⟨name, m, j, other, hcall, hpath, hhome, hj, hop⟩
    · cases hstep with
      | home hhome' hearlier' =>
        exact .inl ⟨hhome'.trans hhome, hearlier'.trans hr hearlier⟩
      | call hj hop hcall =>
        exact .inr ⟨_, _, _, _, hhome ▸ hcall, .refl, homeOf_method hj hop, hj, hop⟩
    · cases hstep with
      | home hhome' _ =>
        exact .inr ⟨name, m, j, other, hcall, hpath, hhome'.trans hhome, hj, hop⟩
      | call hj' hop' hcall' =>
        exact .inr ⟨name, _, _, _, hcall, hpath.tail ⟨m, j, hj, hop, hhome ▸ hcall'⟩,
          homeOf_method hj' hop', hj', hop'⟩

/-- **A cycle of sources is a cycle of calls.** -/
theorem exists_recursion (hr : (trace code).error? = none) (h : TransGen (Source code) d d) :
    ∃ name, TransGen (Replay.BodyCalls code) name name := by
  rcases path_cases hr h with ⟨-, hearlier⟩ | ⟨name, m, j, other, hcall, hpath, hhome, hj, hop⟩
  · exact absurd hearlier not_earlier_self
  · exact ⟨other, .head' ⟨m, j, hj, hop, hhome ▸ hcall⟩ hpath⟩

/-- A parameter depends on itself: one of its edges leads to an argument that some call passes for it,
and the type of that argument depends on the parameter. -/
def FeedsItself (g : Graph) (p : Nat) : Prop :=
  (∃ index, (g.record p).instruction.op = .pushArg index) ∧
    ∃ arg, .record arg ∈ (g.record p).dependencies ∧
      ReflTransGen g.DependsOn (.record arg) (.record p)

namespace Built

variable (b : Built code g)

include b

/-- A parameter depends on records alone. -/
theorem exists_record_of_pushArg {index : Int} (hi : code[n]? = some i)
    (ho : i.op = .pushArg index) (hd : d ∈ (g.record n).dependencies) : ∃ arg, d = .record arg := by
  obtain ⟨j, e, h, -, hsite⟩ := b.edgeFits hd
  obtain rfl := Option.some.inj (hi.symm.trans h.1)
  -- A site belongs to a call, and this record is none.
  have hno : ∀ site, d = .send site ∨ d = .operator site → ∃ arg, d = .record arg := by
    intro site hd
    obtain ⟨r, args, rfl, -⟩ := hsite site hd
    obtain ⟨name, count, ho'⟩ := h.op_of_send
    rw [ho] at ho'
    cases ho'
  cases d with
  | record arg => exact ⟨arg, rfl⟩
  | send site => exact hno site (.inl rfl)
  | operator site => exact hno site (.inr rfl)

/-- **What depends on itself is recursive**, if it does not do so through a parameter that feeds
itself. -/
theorem recursion_of_cycle (hroles : Roles code links 0 code.length)
    (hfeeds : ∀ p, ReflTransGen g.DependsOn d (.record p) →
      ReflTransGen g.DependsOn (.record p) d → ¬ g.FeedsItself p)
    (hown : Inference.Owned g d) (h : TransGen g.DependsOn d d) :
    ∃ name, TransGen (Replay.BodyCalls code) name name := by
  -- Every edge on the cycle leads to a source of what it comes from, so it is a cycle of sources.
  refine exists_recursion b.replayed (transGen_of_cycle h fun a c ha hstep hback => ?_)
  refine b.source_of_dependsOn hroles (Inference.Owned.of_dependsOn b.isWired hown ha) hstep ?_ ?_
  · rintro n i index rfl hi ho
    cases hstep with
    | edge hgiven hd =>
      obtain ⟨arg, rfl⟩ := b.exists_record_of_pushArg hi ho hd
      have hparam : (g.record n).instruction.op = .pushArg index := by rw [b.record_eq hi, ho]
      exact hfeeds n ha (.head (.edge hgiven hd) hback) ⟨⟨index, hparam⟩, arg, hd, hback.trans ha⟩
  · -- The cycle goes on from here, so this has its type from elsewhere.
    rintro m rfl
    obtain ⟨c, hstep', -⟩ := TransGen.head'_iff.mp (h.trans_right hback)
    cases hstep' with
    | edge hgiven _ => exact hgiven

/-- A parameter that feeds itself stands in the code. -/
theorem lt_of_feedsItself {p : Nat} (hp : g.FeedsItself p) : p < code.length := by
  obtain ⟨-, _, hmem, -⟩ := hp
  exact b.size_eq ▸ Inference.lt_size_of_mem hmem

/-- A parameter that feeds itself has no type. -/
theorem not_typed_of_feedsItself {p : Nat} {t : Ty} (hp : g.FeedsItself p) :
    ¬ g.HasType (.record p) t := by
  have hi := List.getElem?_eq_getElem (b.lt_of_feedsItself hp)
  obtain ⟨⟨index, ho⟩, arg, hmem, hpath⟩ := hp
  rw [b.record_eq hi] at ho
  have hgiven : (g.record p).given? = none := by
    rw [b.record_eq hi]
    exact congrArg Operation.givenType? ho
  exact fun ht => ht.not_transGen (.head' (.edge hgiven hmem) hpath)

end Built

end Graph

/-! ### Reports -/

namespace Inference

/-- If several types are asked for and there is an error, it is the error for one of them. -/
theorem exists_of_mapM_resolve_error {error : CompileError} :
    ∀ (ns : List Nat) {s : Store}, Reached g s →
      (outcome (ns.mapM (resolve g)) s).1 = .error error →
      ∃ n ∈ ns, ∃ s', Reached g s' ∧ (outcome (resolve g n) s').1 = .error error := by
  intro ns
  induction ns with
  | nil => exact fun _ h => nomatch h
  | cons n ns ih =>
    intro s hs h
    rw [List.mapM_cons] at h
    have hreach : Reached g (outcome (resolve g n) s).2 := .resolve n hs
    -- The sweep fails at this record, or at a later one.
    cases hn : outcome (resolve g n) s with
    | mk r s₁ =>
      rw [hn] at hreach
      cases r with
      | error e =>
        rw [outcome_bind_error hn] at h
        refine ⟨n, .head _, s, hs, ?_⟩
        rw [hn]
        exact congrArg _ (Except.error.inj h)
      | ok t =>
        rw [outcome_bind_ok hn] at h
        cases hrest : outcome (ns.mapM (resolve g)) s₁ with
        | mk r s₂ =>
          cases r with
          | error e =>
            rw [outcome_bind_error hrest] at h
            obtain ⟨m, hm, hlater⟩ := ih hreach (by rw [hrest]; exact congrArg _ (Except.error.inj h))
            exact ⟨m, .tail _ hm, hlater⟩
          | ok ts =>
            rw [outcome_bind_ok hrest] at h
            cases h

/-- If `infer` reports an error in a graph, it is the error for one of its records. -/
theorem exists_of_infer_error (h : Graph.build code = .ok g) {error : CompileError}
    (hinfer : infer code = .error (.compile error)) :
    ∃ n < g.records.size, ∃ s, Reached g s ∧ (outcome (resolve g n) s).1 = .error error := by
  have hall : (outcome (resolveAll g) (.ofGraph g)).1 = .error error := by
    rw [infer_eq h] at hinfer
    -- What inference reports is what the sweep reports.
    cases hrun : outcome (resolveAll g) (.ofGraph g) with
    | mk r s =>
      rw [hrun] at hinfer
      cases r with
      | error e => exact congrArg _ (StageError.compile.inj (Except.error.inj hinfer))
      | ok ts => cases hinfer
  obtain ⟨n, hn, hs⟩ := exists_of_mapM_resolve_error _ .fresh hall
  exact ⟨n, List.mem_range.mp hn, hs⟩

/-- If `infer` reports a cycle in a graph, the report is about something that depends on itself. -/
theorem exists_cycle_of_infer (h : Graph.build code = .ok g) {error : CompileError}
    (hinfer : infer code = .error (.compile error)) (hcause : error.cause = .circularType) :
    ∃ d, error = circular g d ∧ Owned g d ∧ TransGen g.DependsOn d d := by
  have w := (Graph.built_of_build h).isWired
  obtain ⟨n, -, s, hs, he⟩ := exists_of_infer_error h hinfer
  obtain ⟨d, heq, hcycle, hreach⟩ :=
    justified_resolveWithin w _ [] (.record n) s trivial (.start _) (hs.sound w) error he hcause
  exact ⟨d, heq, .of_dependsOn (a := .record n) w trivial hreach, hcycle⟩

end Inference

open Inference

/-- **Cycles are recursion, or parameters that depend on themselves.** Take a program in which no
method can reach a call of itself by following the calls in the bodies of methods, by their names. If
its types are refused because of a cycle, the cycle goes through a parameter for which some call
passes an argument that depends on the parameter. And with such a parameter no program is typed. -/
theorem cycles_are_recursive {source : String} {root : Node} (hread : Syntax.read source = .ok root)
    (hcalls : ∀ name, ¬ TransGen root.BodyCalls name name) :
    (∀ e, Program.typed source = .error (.compile e) → e.cause = .circularType →
      ∃ code g d p, Program.code source = .ok code ∧ Graph.build code = .ok g ∧
        e = circular g d ∧ g.FeedsItself p ∧ ReflTransGen g.DependsOn d (.record p) ∧
          ReflTransGen g.DependsOn (.record p) d) ∧
    ∀ code g p, Program.code source = .ok code → Graph.build code = .ok g → g.FeedsItself p →
      ∀ records, Program.typed source ≠ .ok records := by
  obtain ⟨statements, rfl, hsurface⟩ := Syntax.surface_of_read hread
  -- The code is the lowering of what was read, laid out from its start.
  have hcode : ∀ code, Lowering.program (.block .start statements) = .ok code →
      Program.code source = .ok code ∧
        Layout code (fun _ _ => True) none (.statements statements) 0 code.length := by
    intro code hlower
    have hlayout := layout_of_lower hsurface hlower (CodeAt.self code)
    rw [Nat.zero_add] at hlayout
    exact ⟨Program.code_eq_ok_iff.mpr ⟨_, hread, hlower⟩, hlayout⟩
  constructor
  · intro e he hcause
    rcases Node.cases_of_typed_error (typed_eq_of_read hread ▸ he) with hlower | ⟨code, hlower, hinfer⟩
    · obtain ⟨_, _, _, rfl, -⟩ := refused_of_lower hsurface hlower
      cases hcause
    · obtain ⟨hcode, hlayout⟩ := hcode code hlower
      have hr := hlayout.replayed
      cases hg : Graph.build code with
      | error error =>
        rw [infer, hg] at hinfer
        obtain rfl := Except.error.inj hinfer
        exact absurd hcause (cause_of_build hr hg)
      | ok g =>
        have b := Graph.built_of_build hg
        obtain ⟨d, heq, hown, hcycle⟩ := exists_cycle_of_infer hg hinfer hcause
        -- A cycle that passes no such parameter would come from calls in a circle.
        by_contra hno
        obtain ⟨name, hrec⟩ := b.recursion_of_cycle (hlayout.roles hr)
          (fun p hto hfrom hp => hno ⟨code, g, d, p, hcode, hg, heq, hp, hto, hfrom⟩) hown hcycle
        exact hcalls name (TransGen.mono (fun _ _ => hlayout.bodyCalls) name name hrec)
  · intro code g p hcode hg hp records hok
    obtain ⟨code', hcode', hinfer⟩ := typed_eq_ok_iff.mp hok
    obtain rfl := Except.ok.inj (hcode.symm.trans hcode')
    have b := Graph.built_of_build hg
    have hi := List.getElem?_eq_getElem (b.lt_of_feedsItself hp)
    obtain ⟨t, -, ht⟩ := getElem?_of_infer hg hinfer hi
    -- What is typed depends on nothing that depends on it.
    exact b.not_typed_of_feedsItself hp ht

/-! ### Samples -/

namespace Node

/-- All that stands in a piece of syntax, which is not too deep, has a property. -/
def allWithin (P : Node → Bool) : (depth : Nat) → Node → Bool
  | 0, _ => false
  | depth + 1, x => P x && x.children.all (allWithin P depth)

theorem of_allWithin {P : Node → Bool} {x y : Node} (h : x.Encloses y) :
    ∀ {depth}, x.allWithin P depth → P y := by
  induction h using ReflTransGen.head_induction_on with
  | refl =>
    rintro (_ | depth) h
    · cases h
    · exact (Bool.and_eq_true_iff.mp h).1
  | head hz _ ih =>
    rintro (_ | depth) h
    · cases h
    · exact ih (List.all_eq_true.mp (Bool.and_eq_true_iff.mp h).2 _ hz)

/-- Nothing is called in a piece of syntax. -/
def callsNothing (depth : Nat) : Node → Bool :=
  allWithin (fun | .call _ _ _ _ => false | _ => true) depth

/-- Nothing is called in the methods that stand in a piece of syntax. -/
def bodiesCallNothing (depth : Nat) : Node → Bool :=
  allWithin (fun | .methodDef _ _ _ (some body) => body.callsNothing depth | _ => true) depth

/-- Bodies that call nothing form no circle. -/
theorem not_bodyCalls {depth : Nat} {x : Node} (h : x.bodiesCallNothing depth) (name : String) :
    ¬ TransGen x.BodyCalls name name := by
  intro hcycle
  obtain ⟨other, ⟨pos, params, body, hmethod, _, _, _, hcall⟩, -⟩ := TransGen.head'_iff.mp hcycle
  have hmethods := of_allWithin hmethod h
  have hbody : body.callsNothing depth := hmethods
  exact Bool.false_ne_true (of_allWithin hcall.encloses hbody)

end Node

namespace Sample

/-- A method that is called with a result of its own, but answers the same for all arguments. -/
def constantTwice : String := "def f(x)\n  1\nend\nf(f(2))\n"

/-- A method that is called with a result of its own, and answers its argument. -/
def identityTwice : String := "def f(x)\n  x\nend\nf(f(1))\n"

/-- The samples by descent. They are evaluated together, once. -/
theorem callTwice_descends :
    ((Syntax.descend? constantTwice).any fun root => root.toOption.any fun x =>
      x.bodiesCallNothing 9 && x.typed.isOk) = true ∧
    ((Syntax.descend? identityTwice).any fun root => root.toOption.any fun x =>
      x.bodiesCallNothing 9 && match x.typed with
        | .error (.compile e) => decide (e.cause = .circularType)
        | _ => false) = true := by
  decide +kernel

end Sample

/-- A result of a method is an argument of the same method, and no parameter feeds itself. -/
theorem cycles_are_recursive_constant : ∃ root code g,
    Syntax.read Sample.constantTwice = .ok root ∧ (∀ name, ¬ TransGen root.BodyCalls name name) ∧
      Program.code Sample.constantTwice = .ok code ∧ Graph.build code = .ok g ∧
        ∀ p, ¬ g.FeedsItself p := by
  obtain ⟨root, hread, htest⟩ := Syntax.exists_of_descend Sample.callTwice_descends.1
  obtain ⟨hcalls, hok⟩ := Bool.and_eq_true_iff.mp htest
  obtain ⟨records, htyped⟩ := exists_of_isOk hok
  rw [← typed_eq_of_read hread] at htyped
  obtain ⟨code, hcode, hinfer⟩ := typed_eq_ok_iff.mp htyped
  obtain ⟨g, hg⟩ := exists_build_of_infer hinfer
  -- The bodies call nothing, which is checked on the tree.
  have hacyclic := Node.not_bodyCalls hcalls
  refine ⟨root, code, g, hread, hacyclic, hcode, hg, fun p hp => ?_⟩
  exact (cycles_are_recursive hread hacyclic).2 code g p hcode hg hp records htyped

/-- No method calls anything, and yet a cycle is reported. -/
theorem cycle_without_recursion : ∃ root e,
    Syntax.read Sample.identityTwice = .ok root ∧ (∀ name, ¬ TransGen root.BodyCalls name name) ∧
      Program.typed Sample.identityTwice = .error (.compile e) ∧ e.cause = .circularType := by
  obtain ⟨root, hread, htest⟩ := Syntax.exists_of_descend Sample.callTwice_descends.2
  obtain ⟨hcalls, herror⟩ := Bool.and_eq_true_iff.mp htest
  split at herror
  · next e he =>
    refine ⟨root, e, hread, Node.not_bodyCalls hcalls, ?_, of_decide_eq_true herror⟩
    rw [typed_eq_of_read hread, he]
  · cases herror

end Rubylet

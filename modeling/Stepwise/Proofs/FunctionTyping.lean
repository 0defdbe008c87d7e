import Mathlib
import Stepwise.Proofs.StmtTyping

/-!
# The types of functions

The typed setting of a compiled program, with what its source says of each routine. Every
instruction of every routine works with values of the right types, and every expression of the
source leaves a value of its static type.

## Main definitions

* `Grounded`: the rest of a function body in its routine, with the types of the names in scope
* `Compilation.typedSetting`: a compiled program with what its source says

## Main results

* `checked_of_lowerBody`: a function body is checked and its expressions are assured
* `Compilation.faithful`: the source says of a compiled program what is the case
* `Compilation.checks`: every instruction of a routine is checked
* `Compilation.typed_of_lowers`: where the code of an expression ends, a value of its type is on top
  of the stack
-/

namespace Stepwise.TypedSetting

open Snippet Lowering

variable {S : TypedSetting} {f : Routine} {addr : Nat} {site : Site}

/-! ## Statements of a body -/

/-- A statement at any depth of a function body whose code starts at `addr`. -/
def Within (site : Site) (body : List Stmt) (d : Draft) (addr : Nat) (o : Occurrence) : Prop :=
  ∃ pre stmt post before d₁ here d₂, body = pre ++ stmt :: post ∧
    lowerBody site pre d = .ok (before, d₁) ∧ lowerStmt site stmt d₁ = .ok (here, d₂) ∧
    Relation.ReflTransGen Part ⟨site, d₁, stmt, addr + before.size + d₂.reserved.size⟩ o

/-- A statement of a body lies in its first statement or in the rest. -/
theorem within_cons {stmt : Stmt} {rest : List Stmt} {d d₁ : Draft} {here : Code} {o : Occurrence}
    (hhere : lowerStmt site stmt d = .ok (here, d₁)) :
    Within site (stmt :: rest) d addr o ↔
      Relation.ReflTransGen Part ⟨site, d, stmt, addr + d₁.reserved.size⟩ o ∨
        Within site rest d₁.emptied (addr + (d₁.reserved ++ here).size) o := by
  constructor
  · rintro ⟨pre, stmt', post, before, d₂, here', d₃, hsplit, hpre, hrun, hparts⟩
    rcases pre with _ | ⟨first, pre⟩
    · obtain ⟨rfl, rfl⟩ := List.cons.inj hsplit
      obtain ⟨rfl, rfl⟩ := lowerBody_nil_eq_ok.mp hpre
      cases hhere.symm.trans hrun
      exact .inl hparts
    · obtain ⟨rfl, rfl⟩ := List.cons.inj hsplit
      obtain ⟨here₁, d₄, before', hhere', hpre', rfl⟩ := lowerBody_cons_eq_ok.mp hpre
      cases hhere.symm.trans hhere'
      refine .inr ⟨pre, stmt', post, before', d₂, here', d₃, rfl, hpre', hrun, ?_⟩
      rwa [Nat.add_assoc addr, ← Code.size_append]
  · rintro (hparts | ⟨pre, stmt', post, before, d₂, here', d₃, rfl, hpre, hrun, hparts⟩)
    · exact ⟨[], stmt, rest, [], d, here, d₁, rfl, lowerBody_nil_eq_ok.mpr ⟨rfl, rfl⟩, hhere, hparts⟩
    · refine ⟨stmt :: pre, stmt', post, _, d₂, here', d₃, rfl,
        lowerBody_cons_eq_ok.mpr ⟨here, d₁, before, hhere, hpre, rfl⟩, hrun, ?_⟩
      rwa [Code.size_append, ← Nat.add_assoc addr]

/-- The parts of a statement, at every depth, stand as the statement does. -/
theorem Poses.parts {r : Nat} (hf : S.Disciplined f) {o o' : Occurrence} (ho : S.Poses f r o)
    (hparts : Relation.ReflTransGen Part o o') : S.Poses f r o' := by
  induction hparts with
  | refl => exact ho
  | tail _ hpart ih => exact ih.part hf hpart

/-! ## Function bodies -/

/-- The rest of a function body stands where exactly the slots of the variables so far are reserved,
and the names in scope have the types that the scope says. -/
structure Grounded (S : TypedSetting) (f : Routine) (d d' : Draft) (addr : Nat) (code : Code) :
    Prop where
  rooted : S.Rooted f d d' addr code
  describes : S.Describes f d.frame.next d.scope
  stands : S.Stands f d.frame.next addr code

section Body

variable {stmt : Stmt} {rest : List Stmt} {d d₁ d' : Draft} {here after : Code}

/-- The reservations in front of a statement of a body say nothing of `R2`. -/
theorem calm_reserved (hnest : site.nested = false) (hempty : d.reserved = [])
    (hrun : lowerStmt site stmt d = .ok (here, d₁)) : S.Calm f d₁.reserved := by
  obtain ⟨slots, hg, hslots, hnone, -⟩ := Setting.grows_of_bodyStmt hnest hempty hrun
  by_cases hdef : Deferred site stmt
  · rw [hslots hdef]
    exact calm_slotCode hg.slots
  · rw [hnone hdef]
    exact calm_nil

/-- The statements after the first one of a body. -/
theorem Grounded.tail (hf : S.Disciplined f) (hnest : site.nested = false)
    (h : S.Grounded f d d' addr (d₁.reserved ++ here ++ after))
    (hrun : lowerStmt site stmt d = .ok (here, d₁))
    (hafter : lowerBody site rest d₁.emptied = .ok (after, d')) :
    S.Grounded f d₁.emptied d' (addr + (d₁.reserved ++ here).size) after := by
  obtain ⟨slots, hg, -, -, hcounts⟩ := Setting.grows_of_bodyStmt hnest h.rooted.empty hrun
  obtain ⟨_, hg'⟩ := Setting.grows_of_lowerBody hnest rfl hafter
  have hsize := h.rooted.laid.size_lt.trans hf.size_lt
  rw [Code.size_append] at hsize
  obtain ⟨-, hres⟩ := hcounts (by omega)
  have hdesc : S.Describes f d₁.frame.next d₁.scope :=
    h.describes.follow (leads_of_lowerStmt hrun) (hg'.frame.trans h.rooted.frame) hf.frame
  have hstands := h.stands.append_right
    ((calm_reserved hnest h.rooted.empty hrun).append (calm_of_lowerStmt hrun))
  rw [hres, ← hg.next] at hstands
  exact ⟨h.rooted.tail hf.size_lt hnest hrun hafter, hdesc, hstands⟩

/-- A statement of a body whose variables have their slots reserved in front of it. -/
theorem Grounded.poses (hnest : site.nested = false)
    (hloop : site.loop = none) (hret : site.ret = (S.header f).ret)
    (h : S.Grounded f d d' addr (d₁.reserved ++ here ++ after))
    (hrun : lowerStmt site stmt d = .ok (here, d₁)) (hdef : Deferred site stmt)
    (hafter : lowerBody site rest d₁.emptied = .ok (after, d'))
    (hknown : ∀ ⦃o⦄, Relation.ReflTransGen Part ⟨site, d, stmt, addr + d₁.reserved.size⟩ o →
      (S.header f).contains o) :
    S.Poses f d₁.frame.next ⟨site, d, stmt, addr + d₁.reserved.size⟩ := by
  obtain ⟨slots, hg, hslots, -⟩ := Setting.grows_of_bodyStmt hnest h.rooted.empty hrun
  have hseated := (h.rooted.occurs hnest hloop hrun hdef hafter).seated hrun
  have hstands := h.stands.append_left.append_right (calm_reserved hnest h.rooted.empty hrun)
  rw [hslots hdef] at hstands
  rw [hg.slots.counts.2, ← hg.next, ← hslots hdef] at hstands
  refine ⟨⟨here, d₁, hrun, hdef, hseated, h.describes, ?_, hret, hstands⟩, hknown⟩
  intro l hl
  cases hloop.symm.trans hl

/-- A statement of a body is checked, with its reservations, and its expressions are assured. -/
theorem checked_of_bodyStmt (hS : S.Faithful) (hf : S.Disciplined f) (hnest : site.nested = false)
    (hloop : site.loop = none) (hret : site.ret = (S.header f).ret)
    (h : S.Grounded f d d' addr (d₁.reserved ++ here ++ after))
    (hrun : lowerStmt site stmt d = .ok (here, d₁))
    (hafter : lowerBody site rest d₁.emptied = .ok (after, d'))
    (hknown : ∀ ⦃o⦄, Relation.ReflTransGen Part ⟨site, d, stmt, addr + d₁.reserved.size⟩ o →
      (S.header f).contains o) :
    S.Checked f addr (d₁.reserved ++ here) ∧
      ∀ ⦃o needed x⦄, Relation.ReflTransGen Part ⟨site, d, stmt, addr + d₁.reserved.size⟩ o →
        StmtExpr o needed x → S.Assured f needed x := by
  obtain ⟨slots, hg, hslots, hnone, -⟩ := Setting.grows_of_bodyStmt hnest h.rooted.empty hrun
  by_cases hdef : Deferred site stmt
  · have hposes := h.poses hnest hloop hret hrun hdef hafter hknown
    refine ⟨?_, ?_⟩
    · -- the reservations stand where nothing but variables lies on the stack
      obtain ⟨t, -, -, hstaged⟩ := h.stands
      have htemps := temps_eq_nil hf h.rooted.laid.start hstaged
      have hreserved := (staged_append.mp (staged_append.mp hstaged).1).1
      rw [checked_append]
      refine ⟨checked_of_accepted hreserved ?_, (vouched_of_poses hS hf hposes).1 hrun⟩
      rw [hslots hdef]
      exact accepted_slotCode hg.slots htemps
    · intro o needed x hparts hx
      exact (vouched_of_poses hS hf (hposes.parts hf hparts)).2 hx
  · obtain ⟨decl, rfl⟩ := exists_declare_of_not_deferred hdef
    obtain ⟨hroot, hdesc, hstands⟩ := h
    obtain ⟨_, hg'⟩ := Setting.grows_of_lowerBody hnest rfl hafter
    obtain ⟨c, rfl, hc⟩ := loweredStmt_of_lowerStmt hrun
    rw [hnone hdef, List.nil_append] at hroot hstands ⊢
    rw [hnone hdef, Code.size_nil, Nat.add_zero] at hknown
    rw [Code.size_nil, Nat.add_zero]
    have hlaid := (laid_append.mp hroot.laid).1
    rw [laid_located] at hlaid
    cases hc with
    | declare hty hd =>
      obtain ⟨hchecked, hsettled⟩ := sound_of_declareLocals hS hf hty hd hdesc
        (hg'.supply.extends.trans hroot.grown) (hg'.frame.trans hroot.frame)
        (by simp [hnest]) hlaid (stands_located.mp hstands.append_left) (by
          rintro x ⟨pre, dr, post, before, d₂, init, hsplit, hpre, hinit, himm, rfl⟩
          exact hS.stmt (hknown .refl) (.initializer hsplit hpre hinit himm))
      refine ⟨checked_located.mpr hchecked, ?_⟩
      intro o needed x hparts hx
      -- a declaration has no statements inside it
      rcases Relation.ReflTransGen.cases_head hparts with rfl | ⟨o', hpart, -⟩
      · cases hx with
        | initializer hsplit hpre hinit himm =>
          exact (hsettled _ ⟨_, _, _, _, _, _, hsplit, hpre, hinit, himm, rfl⟩).assured true
      · cases hpart

end Body

/-- **A function body is checked and its expressions are assured.** -/
theorem checked_of_lowerBody (hS : S.Faithful) (hf : S.Disciplined f) (hnest : site.nested = false)
    (hloop : site.loop = none) (hret : site.ret = (S.header f).ret) {body : List Stmt}
    {d d' : Draft} {code : Code} (hrun : lowerBody site body d = .ok (code, d'))
    (h : S.Grounded f d d' addr code)
    (hknown : ∀ ⦃o⦄, Within site body d addr o → (S.header f).contains o) :
    S.Checked f addr code ∧ ∀ ⦃o needed x⦄, Within site body d addr o → StmtExpr o needed x →
      S.Assured f needed x := by
  induction body generalizing d addr code with
  | nil =>
    obtain ⟨rfl, -⟩ := lowerBody_nil_eq_ok.mp hrun
    refine ⟨checked_nil, ?_⟩
    rintro o needed x ⟨pre, stmt, post, -, -, -, -, hsplit, -⟩
    simp at hsplit
  | cons stmt rest ih =>
    obtain ⟨here, d₁, after, hhere, hafter, rfl⟩ := lowerBody_cons_eq_ok.mp hrun
    simp only [within_cons hhere] at hknown ⊢
    obtain ⟨hchecked, hassured⟩ := checked_of_bodyStmt hS hf hnest hloop hret h hhere hafter
      fun o hparts => hknown (.inl hparts)
    obtain ⟨hchecked', hassured'⟩ := ih hafter (h.tail hf hnest hhere hafter)
      fun o hwithin => hknown (.inr hwithin)
    refine ⟨checked_append.mpr ⟨hchecked, hchecked'⟩, ?_⟩
    rintro o needed x (hparts | hwithin) hx
    · exact hassured hparts hx
    · exact hassured' hwithin hx

/-! ## Parameters -/

theorem Describes.declare {limit : Nat} {scope scope' : Scope} {name : String} {symbol : Symbol}
    (h : S.Describes f limit scope) (hd : scope.declare name symbol = .ok scope')
    (hsym : S.Denotes f limit name symbol) : S.Describes f limit scope' := by
  intro k symbol' hk
  rw [Scope.lookup?_of_declare hd] at hk
  split at hk
  next hname =>
    cases hk
    rwa [hname]
  · exact h hk

/-- Parameters have the types of the header. -/
theorem describes_of_bound {limit : Nat} {d d' : Draft} {ps : List (Ty × String)}
    (h : Bound d ps d') (hdesc : S.Describes f limit d.scope) (hx : d'.frame.Extends f.frame)
    (hps : ∀ k p, ps[k]? = some p → (S.header f).params[d.frame.params + k]? = some p.1) :
    S.Describes f limit d'.scope := by
  induction h with
  | nil => exact hdesc
  | @cons d d' ty name rest scope hd hrest ih =>
    refine ih (hdesc.declare hd ?_) hx ?_
    · refine ⟨⟨-((d.frame.params : Int) + 1), ty, none⟩, ?_, rfl, .inl ⟨rfl, d.frame.params, rfl, ?_⟩⟩
      · refine hx.entries ((Compiler.bound_frame hrest).1.entries ?_)
        simp [FrameLayout.addParam]
      · exact hps 0 (ty, name) rfl
    · intro k p hp
      have hparam := hps (k + 1) p (by simpa using hp)
      rw [Nat.add_comm k, ← Nat.add_assoc] at hparam
      exact hparam

/-! ## Addresses with values on the stack -/

/-- Beyond the code of a routine the stage is the one that the code leaves. -/
theorem scan_eq_walk {t : Stage} {c : Code} {pc : Nat} (h : pc < addr ∨ addr + c.size ≤ pc) :
    S.scan f t addr c pc = S.walk f t addr c := by
  induction c generalizing t addr with
  | nil => rfl
  | cons line c ih =>
    cases line with
    | label name => exact ih h
    | instr i =>
      rw [Code.size_cons_instr] at h
      rw [scan, if_neg (by omega), walk_cons_instr]
      exact ih (by omega)

/-- Code whose values lie on the stack belongs to the routine: behind its last instruction, nothing
is left. -/
theorem holds_of_temps_ne_nil (ha : S.Admitted f 1 1 f.entry f.code)
    (hrise : f.code.rise = f.code.reservations) {pc : Nat} (h : (S.stage f pc).temps ≠ []) :
    f.Holds pc := by
  by_contra hpc
  apply h
  have hwalk : S.stage f pc = S.walk f .start f.entry f.code := by
    refine scan_eq_walk ?_
    simp only [Routine.Holds, not_and_or, not_le, not_lt] at hpc
    exact hpc
  have hlen := length_temps_walk (S := S) (t := .start) ha rfl
  rw [hwalk]
  refine List.length_eq_zero_iff.mp ?_
  rw [hrise] at hlen
  push_cast at hlen
  omega

end Stepwise.TypedSetting

namespace Stepwise.Compiler

open Lowering

/-! ## Statements of a definition -/

theorem Definition.contains_iff {d : Definition} {addr : Nat} {o : Occurrence} :
    d.Contains addr o ↔ TypedSetting.Within d.site d.source.body d.start addr o := by
  constructor
  · intro h
    induction h with
    | body hbody hpre hrun => exact ⟨_, _, _, _, _, _, _, hbody, hpre, hrun, .refl⟩
    | part _ hpart ih =>
      obtain ⟨pre, stmt, post, before, d₁, here, d₂, hbody, hpre, hrun, hparts⟩ := ih
      exact ⟨pre, stmt, post, before, d₁, here, d₂, hbody, hpre, hrun, hparts.tail hpart⟩
  · rintro ⟨pre, stmt, post, before, d₁, here, d₂, hbody, hpre, hrun, hparts⟩
    induction hparts with
    | refl => exact .body hbody hpre hrun
    | tail _ hpart ih => exact .part ih hpart

/-- The code of a body adds the slots of its variables to the stack and nothing else. -/
theorem rise_of_lowerBody {site : Site} {body : List Stmt} {d d' : Draft} {code : Code}
    (hnest : site.nested = false) (hempty : d.reserved = [])
    (hrun : lowerBody site body d = .ok (code, d')) (hsize : code.size < 2 ^ 63) :
    code.rise = code.reservations := by
  induction body generalizing d code with
  | nil =>
    obtain ⟨rfl, -⟩ := lowerBody_nil_eq_ok.mp hrun
    rfl
  | cons stmt rest ih =>
    obtain ⟨here, d₁, after, hhere, hafter, rfl⟩ := lowerBody_cons_eq_ok.mp hrun
    obtain ⟨slots, -, -, -, hcounts⟩ := Setting.grows_of_bodyStmt hnest hempty hhere
    rw [Code.size_append] at hsize
    obtain ⟨hrise, hres⟩ := hcounts (by omega)
    have hrest := ih rfl hafter (by omega)
    rw [Code.rise_append, Code.reservations_append, hrise, hres, hrest]
    push_cast
    rfl

namespace Compilation

variable {hosts : List HostDecl} {program : Program} {image : Image}
  (c : Compilation hosts program image)

/-! ## The typed setting of a compiled program -/

/-- The function whose code starts at an address. -/
def definitionAt? (entry : Nat) : Option Definition :=
  c.definitions.find? fun d => c.labels.get? d.source.name == some entry

theorem definitionAt?_eq_some {d : Definition} {entry : Nat} (hd : d ∈ c.definitions)
    (hr : d.routine entry ∈ c.setting.routines) : c.definitionAt? entry = some d := by
  have hlabel := c.label_routine hr
  have hsome : (c.definitionAt? entry).isSome := by
    rw [definitionAt?, List.find?_isSome]
    exact ⟨d, hd, by simp [hlabel]⟩
  obtain ⟨d', hd'⟩ := Option.isSome_iff_exists.mp hsome
  have hmem := List.mem_of_find?_eq_some hd'
  have hlabel' : c.labels.get? d'.source.name = some entry := by
    simpa using List.find?_some hd'
  obtain ⟨entry', hr'⟩ : ∃ entry', d'.routine entry' ∈ c.setting.routines :=
    exists_routine_of_mem hmem
  obtain rfl : entry = entry' := Option.some.inj (hlabel'.symm.trans (c.label_routine hr'))
  -- both routines start at the address, so they are one, and its label names the function
  have hpos {e : Definition} : (e.routine entry).Holds entry := by
    refine ⟨le_rfl, ?_⟩
    simp [Definition.routine, Definition.draft, functionCode]
  have heq := c.holds_unique hr hr' hpos hpos
  have hcode : d.draft = d'.draft := congrArg Routine.code heq
  have hname : d.source.name = d'.source.name := by
    simp only [Definition.draft, functionCode, List.cons_append] at hcode
    exact Line.label.inj (List.cons.inj hcode).1
  have hnodup := c.signed.nodup
  rw [← c.sources_eq, List.map_map] at hnodup
  rw [hd', List.inj_on_of_nodup_map hnodup hd hmem hname]

/-- What the source says of a function whose code starts at an address. -/
def headerAt (entry : Nat) : Header :=
  match c.definitionAt? entry with
  | some d => ⟨(namedParams d.source.parameters).map Prod.fst, d.source.ret, d.Contains entry,
    d.Lowers entry⟩
  | none => ⟨[], .void, fun _ => False, fun _ _ => False⟩

/-- A compiled program with what its source says. -/
def typedSetting : TypedSetting where
  toSetting := c.setting
  names := c.progress.scope.inner
  hosts := hostTable hosts
  header f := c.headerAt f.entry

theorem header_routine {d : Definition} {entry : Nat} (hd : d ∈ c.definitions)
    (hr : d.routine entry ∈ c.setting.routines) :
    c.typedSetting.header (d.routine entry) =
      ⟨(namedParams d.source.parameters).map Prod.fst, d.source.ret, d.Contains entry,
        d.Lowers entry⟩ := by
  show c.headerAt entry = _
  rw [headerAt, c.definitionAt?_eq_some hd hr]

/-- **The source says of a compiled program what is the case.** -/
theorem faithful (hsize : image.code.size < 2 ^ 63) : c.typedSetting.Faithful where
  addressable := hsize
  globals := c.sound
  compiled := by
    intro name sig hname hext
    rcases (c.signed.get?_iff _ _).mp (c.widens.functions hname) with
      ⟨d, -, hd⟩ | ⟨f, hf, hn, params, hp, hsym⟩
    · cases hd
      cases hext
    · cases hsym
      simp only at hn
      rw [← c.sources_eq] at hf
      obtain ⟨d, hd, rfl⟩ := List.mem_map.mp hf
      obtain ⟨entry, hr⟩ : ∃ entry, d.routine entry ∈ c.setting.routines :=
        exists_routine_of_mem hd
      obtain ⟨rfl, -⟩ := parameterTypes_eq_ok hp
      refine ⟨rfl, d.routine entry, hr, ?_, ?_, ?_, ?_⟩
      · rw [hn]
        exact c.label_routine hr
      · simp [Definition.routine, Definition.argc]
      · rw [c.header_routine hd hr]
      · rw [c.header_routine hd hr]
  host := by
    intro name sig hname hext
    rcases (c.signed.get?_iff _ _).mp (c.widens.functions hname) with
      ⟨d, hd, hsym⟩ | ⟨f, hf, hn, params, hp, hsym⟩
    · obtain ⟨⟨key, d'⟩, he, rfl⟩ := List.mem_map.mp hd
      -- the table lists each declaration under its own name
      obtain ⟨d, -, hkey⟩ := List.mem_map.mp (Table.mem_of_mem_ofList he)
      cases hkey
      cases hsym
      exact ⟨_, Table.get?_eq_some_iff.mpr he, rfl, rfl⟩
    · cases hsym
      cases hext
  stmt := by
    intro f o needed x ho hx
    simp only [typedSetting, headerAt] at ho ⊢
    split at ho
    · exact .stmt ho hx
    · exact ho.elim
  part := by
    intro f needed x y hlow hpart
    simp only [typedSetting, headerAt] at hlow ⊢
    split at hlow
    · exact .part hlow hpart
    · exact hlow.elim
  dropped := by
    intro f x hlow heffect
    simp only [typedSetting, headerAt] at hlow ⊢
    split at hlow
    · exact .dropped hlow heffect
    · exact hlow.elim

/-! ## The code of a function -/

section Routine

variable {d : Definition} {entry : Nat} (hsize : image.code.size < 2 ^ 63)
  (hr : d.routine entry ∈ c.setting.routines) (hd : d ∈ c.definitions)

include hsize hr hd

theorem disciplined : c.typedSetting.Disciplined (d.routine entry) := by
  have hfit := c.size_lt_of_routine hsize hr
  refine ⟨?_, (c.compiled hd).frame_sound, hfit⟩
  have hbody := Setting.admitted_of_lowerBody c.sound hfit rfl rfl (c.compiled hd).lowered
    (c.rooted hr hd)
  rw [(c.compiled hd).start_next] at hbody
  show c.setting.Admitted (d.routine entry) 1 1 entry ([.label d.source.name] ++ d.body ++ _)
  rw [Setting.admitted_append]
  exact ⟨hbody, trivial, trivial⟩

theorem rise_routine : (d.routine entry).code.rise = (d.routine entry).code.reservations := by
  have hle := (c.placed hr).2
  have hbody : d.body.size < 2 ^ 63 := by
    simp only [Definition.routine, Definition.draft, functionCode, Code.size_append] at hle
    omega
  have hrise := rise_of_lowerBody rfl (c.compiled hd).start_reserved (c.compiled hd).lowered hbody
  simpa [Definition.routine, Definition.draft, functionCode, Instr.rise, Instr.reserves, Instr.ret,
    Instr.nullary, Instr.withOrigin] using hrise

omit hsize in
/-- Where the body of a function starts, its parameters have the types of its header. -/
theorem describes_start :
    c.typedSetting.Describes (d.routine entry) d.start.frame.next d.start.scope := by
  obtain ⟨hc, hw₀, hw, -, -⟩ := c.translated.mem c.sound_start hd
  obtain ⟨_, hg⟩ := hc.grows
  have houter : d.scope.outer = [] := hw₀.outer.trans c.signed.outer
  refine TypedSetting.describes_of_bound hc.bound ?_ hg.frame ?_
  · intro name symbol hsym
    rw [Draft.start, Scope.lookup?_child, Scope.lookup?_eq, houter] at hsym
    simp only [List.findSome?_nil, Option.or_none] at hsym
    have hsym' := hw.keep hsym
    -- a global name never stands for a slot of a frame
    rcases symbol with ⟨ty, isArray, length, value, offset | key⟩ | sig
    · exact hsym'
    · obtain ⟨o, ho, -⟩ := c.sound.declared hsym'
      cases ho
    · exact hsym'
  · intro k p hp
    rw [c.header_routine hd hr]
    have hzero : (Draft.start d.scope d.globals).frame.params = 0 := rfl
    rw [hzero, Nat.zero_add, List.getElem?_map, hp]
    rfl

omit hsize in
theorem grounded :
    c.typedSetting.Grounded (d.routine entry) d.start d.finish entry d.body := by
  have hcode : (d.routine entry).code = [.label d.source.name] ++
      (d.body ++ Code.ofInstrs [Instr.ret.withOrigin d.source.loc]) := List.append_assoc _ _ _
  have hstaged := TypedSetting.staged_of_placed (S := c.typedSetting) (c.placed hr).1 hcode
  refine ⟨c.rooted hr hd, c.describes_start hr hd, _, rfl, ?_, hstaged⟩
  rw [(c.compiled hd).start_next]
  rfl

/-- The body of a function is checked, and its expressions are assured. -/
theorem checked_body :
    c.typedSetting.Checked (d.routine entry) entry d.body ∧
      ∀ ⦃o needed x⦄, d.Contains entry o → StmtExpr o needed x →
        c.typedSetting.Assured (d.routine entry) needed x := by
  have hheader := c.header_routine hd hr
  simp only [Definition.contains_iff]
  refine TypedSetting.checked_of_lowerBody (c.faithful hsize) (c.disciplined hsize hr hd)
    rfl rfl ?_ (c.compiled hd).lowered (c.grounded hr hd) ?_
  · rw [hheader]
    rfl
  · intro o hwithin
    rw [hheader]
    exact Definition.contains_iff.mpr hwithin

/-- **Every instruction of a function is checked.** -/
theorem checked_routine :
    c.typedSetting.Checked (d.routine entry) entry (d.routine entry).code := by
  show c.typedSetting.Checked (d.routine entry) entry ([.label d.source.name] ++ d.body ++ _)
  have hcode : (d.routine entry).code = ([.label d.source.name] ++ d.body) ++
      (Code.ofInstrs [Instr.ret.withOrigin d.source.loc] ++ []) := by
    rw [List.append_nil]
    rfl
  have hret := TypedSetting.staged_of_placed (S := c.typedSetting) (c.placed hr).1 hcode
  rw [TypedSetting.checked_append, TypedSetting.checked_append]
  refine ⟨⟨TypedSetting.checked_label, (c.checked_body hsize hr hd).1⟩, ?_⟩
  refine TypedSetting.checked_of_accepted hret ⟨.ret (.inr (.inr ?_)), trivial⟩
  -- the last instruction is the return behind the body
  simp [Definition.routine, Definition.draft, functionCode]
  omega

/-- The expressions of a function are assured. -/
theorem assured_of_lowers {needed : Bool} {x : ExprOccurrence} (hx : d.Lowers entry needed x) :
    c.typedSetting.Assured (d.routine entry) needed x := by
  induction hx with
  | stmt hcontains hx => exact (c.checked_body hsize hr hd).2 hcontains hx
  | dropped _ heffect ih => exact (ih.2 (.inr heffect)).assured true
  | part _ hpart ih => exact (ih.1 _ hpart).assured true

/-- **Where the code of an expression ends, a value of its static type is on top of the stack.** -/
theorem typed_of_lowers {x : ExprOccurrence} (hx : d.Lowers entry true x) {code : Code} {ty : Ty}
    {s' : Supply} (hrun : lower x.fn x.scope x.expr x.supply = .ok ((code, ty), s')) :
    (d.routine entry).Holds (x.addr + code.size) ∧ ∃ born rest,
      (c.typedSetting.stage (d.routine entry) (x.addr + code.size)).temps =
        ⟨some ty, born⟩ :: rest := by
  obtain ⟨born, rest, htemps⟩ := (c.assured_of_lowers hsize hr hd hx).2 (.inl rfl) .refl hrun
  refine ⟨?_, born, rest, htemps⟩
  refine TypedSetting.holds_of_temps_ne_nil (c.disciplined hsize hr hd).admitted
    (c.rise_routine hsize hr hd) (S := c.typedSetting) ?_
  rw [htemps]
  exact List.cons_ne_nil _ _

end Routine

/-- Every instruction of a routine is checked. -/
theorem checks (hsize : image.code.size < 2 ^ 63) {f : Routine} (hf : f ∈ c.setting.routines)
    {pc : Nat} (hpc : f.Holds pc) : c.typedSetting.Checks f pc := by
  obtain ⟨d, hd, hfd⟩ := c.exists_definition hf
  generalize f.entry = entry at hfd
  subst hfd
  obtain ⟨k, rfl⟩ := Nat.exists_eq_add_of_le hpc.1
  have hlt := hpc.2
  exact c.checked_routine hsize hf hd k (by omega)

end Compilation

end Stepwise.Compiler

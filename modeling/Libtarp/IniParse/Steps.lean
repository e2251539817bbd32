import Libtarp.IniParse.Parse

/-!
# Two parsers side by side

What the parser does depends on what it reads, on the state of the list and on the section, and not on the rest of its
state.

* `Simulation`: what two states have in common, and keep when fields are set and callbacks are called.
* `Simulation.processText`: they keep it over the text of a line, and the two parsers end alike.
-/

namespace Libtarp.IniParse

variable {σ τ : Type*} {Sim : State σ → State τ → Prop}

/-- Two steps that go on or end alike, but not with the end of the file. -/
inductive Alike (Sim : State σ → State τ → Prop) : Except (Stop × State σ) (State σ) → Except (Stop × State τ) (State τ) → Prop
  | ok {s : State σ} {t : State τ} (h : Sim s t) : Alike Sim (.ok s) (.ok t)
  | error {s : State σ} {t : State τ} (stop : Stop) (hne : stop ≠ .eof) (h : Sim s t) : Alike Sim (.error (stop, s)) (.error (stop, t))

theorem Alike.bind {r : Except (Stop × State σ) (State σ)} {r' : Except (Stop × State τ) (State τ)} {f : Step σ} {g : Step τ}
    (hr : Alike Sim r r') (hfg : ∀ s t, Sim s t → Alike Sim (f s) (g t)) : Alike Sim (r >>= f) (r' >>= g) := by
  cases hr with
  | ok h => exact hfg _ _ h
  | error stop hne h => exact .error stop hne h

theorem Alike.ne_eof {r : Except (Stop × State σ) (State σ)} {r' : Except (Stop × State τ) (State τ)} (h : Alike Sim r r')
    (st : State σ) : r ≠ .error (.eof, st) := by
  cases h with
  | ok _ => exact nofun
  | error stop hne _ => exact fun heq => hne (Prod.mk.inj (Except.error.inj heq)).1

theorem alike_errorOut (ctx : Ctx) (e : IniError) {s : State σ} {t : State τ} (h : Sim s t) :
    Alike Sim (errorOut ctx e s) (errorOut ctx e t) := by
  unfold errorOut
  cases ctx.fatalErrors with
  | true => exact .error (.exit e) nofun h
  | false => exact .error (.error e) nofun h

/-- What the states of two parsers have in common. -/
structure Simulation (cb : Call → σ → ℤ × σ) (cb' : Call → τ → ℤ × τ) (Sim : State σ → State τ → Prop) : Prop where
  list : ∀ {s t}, Sim s t → s.list = t.list
  sectionName : ∀ {s t}, Sim s t → s.section' = t.section'
  withList : ∀ {s t} (list : ListState), Sim s t → Sim { s with list := list } { t with list := list }
  withSection : ∀ {s t} (name : List Char), Sim s t → Sim { s with section' := name } { t with section' := name }
  withKey : ∀ {s t} (key : List Char), Sim s t → Sim { s with key := key } { t with key := key }
  withVal : ∀ {s t} (val : List Char), Sim s t → Sim { s with val := val } { t with val := val }
  callback : ∀ {s t}, Sim s t → Alike Sim (callback cb s) (callback cb' t)

namespace Simulation

variable {cb : Call → σ → ℤ × σ} {cb' : Call → τ → ℤ × τ} {s : State σ} {t : State τ}

theorem setList (hsim : Simulation cb cb' Sim) (ctx : Ctx) (next : ListState) (h : Sim s t) :
    Alike Sim (setList ctx next s) (setList ctx next t) := by
  unfold IniParse.setList
  rw [hsim.list h]
  cases getListError ctx t.list next with
  | some e => exact alike_errorOut ctx e h
  | none => exact .ok (hsim.withList next h)

theorem processToken (hsim : Simulation cb cb' Sim) (ctx : Ctx) (token : List Char) (h : Sim s t) :
    Alike Sim (processToken ctx cb token s) (processToken ctx cb' token t) := by
  unfold IniParse.processToken
  cases isListHead token with
  | some key => exact hsim.setList ctx _ (hsim.withKey key h)
  | none =>
    cases isListStart token with
    | true => exact hsim.setList ctx _ h
    | false =>
      cases isListEntry token with
      | asserted => exact .error .asserted nofun h
      | yes val islast => exact (hsim.setList ctx _ (hsim.withVal val h)).bind fun _ _ => hsim.callback
      | no =>
        cases isListEnd token with
        | true => exact hsim.setList ctx _ h
        | false => exact alike_errorOut ctx .malformed h

theorem processTokens (hsim : Simulation cb cb' Sim) (ctx : Ctx) (line : List Char) (h : Sim s t) :
    Alike Sim (processTokens ctx cb line s) (processTokens ctx cb' line t) := by
  induction hn : line.length using Nat.strong_induction_on generalizing line s t with
  | _ n ih =>
    cases htoken : getListToken line with
    | none =>
      rw [processTokens_none htoken, processTokens_none htoken]
      exact .ok h
    | some p =>
      have hlt := getListToken_lt htoken
      rw [hn] at hlt
      rw [processTokens_some htoken, processTokens_some htoken]
      exact (hsim.processToken ctx p.1 h).bind fun _ _ h' => ih _ hlt p.2 h' rfl

/-- **Two parsers end alike**, and keep what they have in common. -/
theorem processText (hsim : Simulation cb cb' Sim) (ctx : Ctx) (buff : List Char) (h : Sim s t) :
    Alike Sim (processText ctx cb buff s) (processText ctx cb' buff t) := by
  unfold IniParse.processText
  cases isSectionLine buff with
  | some name =>
    have hname := hsim.withSection name h
    have hlist : s.list ≠ .nolist ↔ t.list ≠ .nolist := by rw [hsim.list h]
    dsimp only
    by_cases hopen : t.list ≠ .nolist
    · rw [if_pos hopen, if_pos (hlist.2 hopen)]
      exact alike_errorOut ctx .nested hname
    · rw [if_neg hopen, if_neg (mt hlist.1 hopen)]
      exact .ok hname
  | none =>
    cases isRecordLine buff with
    | none => exact hsim.processTokens ctx buff h
    | some kv =>
      obtain ⟨key, val⟩ := kv
      have hkv := hsim.withVal val (hsim.withKey key h)
      have hlist : s.list ≠ .nolist ↔ t.list ≠ .nolist := by rw [hsim.list h]
      have hsection : s.section' = [] ∧ (!ctx.allowGlobalRecords) = true ↔ t.section' = [] ∧ (!ctx.allowGlobalRecords) = true := by
        rw [hsim.sectionName h]
      dsimp only
      by_cases hglobal : t.section' = [] ∧ (!ctx.allowGlobalRecords) = true
      · rw [if_pos hglobal, if_pos (hsection.2 hglobal)]
        exact alike_errorOut ctx .nosection hkv
      rw [if_neg hglobal, if_neg (mt hsection.1 hglobal)]
      by_cases hopen : t.list ≠ .nolist
      · rw [if_pos hopen, if_pos (hlist.2 hopen)]
        exact alike_errorOut ctx .nested hkv
      · rw [if_neg hopen, if_neg (mt hlist.1 hopen)]
        exact hsim.callback hkv

/-- The same for a line, unless it is taken for the end of the file. -/
theorem processLine (hsim : Simulation cb cb' Sim) (ctx : Ctx) {line : List Char} (hlen : line.length % 2 ^ 32 ≠ 0) (h : Sim s t) :
    Alike Sim (processLine ctx cb line s) (processLine ctx cb' line t) := by
  unfold IniParse.processLine
  dsimp only
  rw [if_neg hlen, if_neg hlen]
  split_ifs
  · exact alike_errorOut ctx .toolong h
  · exact .ok h
  · exact hsim.processText ctx _ h

end Simulation

theorem processLine_end (ctx : Ctx) (cb : Call → σ → ℤ × σ) {line : List Char} (hlen : line.length % 2 ^ 32 = 0) (st : State σ) :
    processLine ctx cb line st = .error (.eof, st) := if_pos hlen

/-- A parser beside itself: the calls that have been made stay. -/
theorem simulation_calls (cb : Call → σ → ℤ × σ) (calls : List Call) :
    Simulation cb cb fun s t => s = t ∧ calls <+: s.calls where
  list h := congrArg State.list h.1
  sectionName h := congrArg State.section' h.1
  withList _ h := ⟨h.1 ▸ rfl, h.2⟩
  withSection _ h := ⟨h.1 ▸ rfl, h.2⟩
  withKey _ h := ⟨h.1 ▸ rfl, h.2⟩
  withVal _ h := ⟨h.1 ▸ rfl, h.2⟩
  callback := by
    rintro s t ⟨rfl, hcalls⟩
    unfold IniParse.callback
    dsimp only
    split_ifs
    · exact .error (.callback _) nofun ⟨rfl, hcalls.trans (List.prefix_append ..)⟩
    · exact .ok ⟨rfl, hcalls.trans (List.prefix_append ..)⟩

theorem Alike.calls_grow {calls : List Call} {r r' : Except (Stop × State σ) (State σ)}
    (h : Alike (fun s t => s = t ∧ calls <+: s.calls) r r') : calls <+: (outcome r).calls := by
  cases h with
  | ok h => exact h.2
  | error _ _ h => exact h.2

end Libtarp.IniParse

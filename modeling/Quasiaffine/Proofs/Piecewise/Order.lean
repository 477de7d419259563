import Quasiaffine.Proofs.Piecewise.Apart
import Quasiaffine.Proofs.Relation.Membership

set_option autoImplicit false

namespace Quasiaffine

theorem Piece.LiesIn.total_eq {p : Piece} {s : Space} (h : p.LiesIn s) (hs : s.Proper) :
    s.total = p.domain.space.total := Space.total_eq_of_agrees h.agrees hs h.domain.proper

namespace Piecewise

variable {s : Space} {x : Row} {ps qs : List Piece}

theorem evalPieces_swap (hs : s.Proper) {p q : Piece} (hp : p.LiesIn s) (hq : q.LiesIn s)
    (hpq : Apart p.domain q.domain) (ps : List Piece) :
    evalPieces x (p :: q :: ps) = evalPieces x (q :: p :: ps) := by
  have htp := hp.total_eq hs
  have htq := hq.total_eq hs
  by_cases hx : x.length = s.total
  · obtain ⟨inP, hokP, hmemP⟩ :=
      hp.domain.contains_spec (hx.trans htp) BasicRelation.defaultRadius
    obtain ⟨inQ, hokQ, hmemQ⟩ :=
      hq.domain.contains_spec (hx.trans htq) BasicRelation.defaultRadius
    cases inP <;> cases inQ
    case true.true => exact absurd (hmemQ rfl) (hpq x (hmemP rfl))
    all_goals simp [evalPieces, hokP, hokQ, bind, Except.bind]
  · have hokP := hp.domain.contains_eq_error (htp ▸ hx) BasicRelation.defaultRadius
    have hokQ := hq.domain.contains_eq_error (htq ▸ hx) BasicRelation.defaultRadius
    simp [evalPieces, hokP, hokQ, bind, Except.bind, ← htp, ← htq]

theorem evalPieces_perm (hs : s.Proper) (h : qs.Perm ps) (hps : ∀ p ∈ ps, p.LiesIn s)
    (hapart : ps.Pairwise fun p q => Apart p.domain q.domain) :
    evalPieces x qs = evalPieces x ps := by
  have hsymm : ∀ {p q : Piece}, Apart p.domain q.domain → Apart q.domain p.domain :=
    fun h x hx hx' => h x hx' hx
  induction h with
  | nil => rfl
  | cons p _ ih =>
    rw [List.forall_mem_cons] at hps
    rw [evalPieces, evalPieces, ih hps.2 (List.pairwise_cons.1 hapart).2]
  | swap p q l =>
    rw [List.forall_mem_cons, List.forall_mem_cons] at hps
    exact evalPieces_swap hs hps.2.1 hps.1
      (hsymm ((List.pairwise_cons.1 hapart).1 q List.mem_cons_self)) l
  | trans _ h ih ih' =>
    rw [ih (fun p hp => hps p (h.mem_iff.1 hp)) ((h.pairwise_iff hsymm).2 hapart), ih' hps hapart]

theorem Separate.eval_perm {f : Piecewise} (hf : f.Separate) (h : qs.Perm f.pieces) (x : Row) :
    evalPieces x qs = f.eval x := evalPieces_perm hf.proper h hf.pieces hf.apart

end Piecewise

end Quasiaffine

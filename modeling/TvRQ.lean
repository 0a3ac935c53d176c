import TvRQ.Algebra.Gf256Poly
import TvRQ.Algebra.M256vCells
import TvRQ.Algebra.M256vFactors
import TvRQ.Algebra.M2vSimulation
import TvRQ.Algebra.MvPlacement
import TvRQ.Algebra.MvSubmat
import TvRQ.Api.Buffers
import TvRQ.Api.Capacity
import TvRQ.Api.Linear
import TvRQ.Api.LtDegree
import TvRQ.Api.OutCompile
import TvRQ.Api.SessionRuns
import TvRQ.Rq.HdpcSpecexact
import TvRQ.Rq.LdpcRelation
import TvRQ.Samples.EncDecMatch
import TvRQ.Samples.EsiLists
import TvRQ.Samples.GenSyms
import TvRQ.Samples.FailProb
import TvRQ.Samples.SplitSolve
import TvRQ.Samples.SystInv

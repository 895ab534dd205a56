import Bitspan.Main
import Bitspan.Proofs.Balance
import Bitspan.Proofs.BalanceExponent
import Bitspan.Proofs.BalanceResults
import Bitspan.Proofs.BitGrowth
import Bitspan.Proofs.Bitwise
import Bitspan.Proofs.Emptiness
import Bitspan.Proofs.Expression
import Bitspan.Proofs.Extrema
import Bitspan.Proofs.Faults
import Bitspan.Proofs.Intersection
import Bitspan.Proofs.Joins
import Bitspan.Proofs.Monotonicity
import Bitspan.Proofs.ProductLaws
import Bitspan.Proofs.Records
import Bitspan.Proofs.Region
import Bitspan.Proofs.RepeatedProduct
import Bitspan.Proofs.Size
import Bitspan.Proofs.Squares
import Bitspan.Proofs.Symmetry
import Bitspan.Proofs.Text

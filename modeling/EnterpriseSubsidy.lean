import EnterpriseSubsidy.Ledger
import EnterpriseSubsidy.Subsidy
import EnterpriseSubsidy.Interleaving
import EnterpriseSubsidy.Uniqueness
import EnterpriseSubsidy.Redemption
import EnterpriseSubsidy.Runs
import EnterpriseSubsidy.Service
import EnterpriseSubsidy.ContentMetadata
import EnterpriseSubsidy.Binary64
import EnterpriseSubsidy.Price
